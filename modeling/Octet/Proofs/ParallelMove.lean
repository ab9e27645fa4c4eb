import Octet.ParallelMove
import Octet.Proofs.Allocation
import Octet.Target.Registers

/-!
# Parallel moves in sequence

The order of parallel moves is found in rounds. A round does a move that overwrites nothing which
another pending move reads; where there is none, each pending move is blocked by another one, and
the source of a blocking move is saved, which then reads nothing. `Schedules` states what the rounds
do, apart from how a move is found. There are enough rounds, since each takes a move away or leaves
one move less that reads anything.

What follows is said of every schedule. Each move is done once, no source is saved twice, and a move
never overwrites what a later one reads, unless the source of that one was saved. So if no two moves
write to the same place, each place receives what the source of its move held at the start. Here a
source is anything whose value depends on the registers that the move reads, and on memory that no
move writes.

## Main definitions

* `ParallelMove.Schedules` — what the rounds do
* `ParallelMove.Meaning`, `ParallelMove.performed` — what moves bring where, and what they leave
  behind in sequence

## Main results

* `ParallelMove.exists_schedule` — there is always a next round
* `ParallelMove.order_of_free` — moves that do not interfere are done in turn
* `ParallelMove.order_sequentializes` — the order makes a sequence of moves out of parallel ones
-/

namespace Octet

/-- Registers that share a unit conflict. -/
theorem Register.conflicts_of_mem_units {r o u : Register} (hr : u ∈ r.units) (ho : u ∈ o.units) :
    r.conflicts o = true := by
  rw [Register.conflicts_iff]
  unfold Register.units at hr ho
  split at hr
  · split at ho
    · exact .inr (.inr (.inr ⟨u, hr, ho⟩))
    · exact .inr (.inl (List.mem_singleton.mp ho ▸ hr))
  · obtain rfl := List.mem_singleton.mp hr
    split at ho
    · exact .inr (.inr (.inl ho))
    · exact .inl (List.mem_singleton.mp ho)

namespace ParallelMove

variable {last : Option Register} {ps : List Pending} {p q : Pending} {order saves : List Nat}

theorem overwrites_iff {m k : ParallelMove} :
    m.overwrites k = true ↔ ∃ d, m.dest = some d ∧ ∃ r ∈ k.reads, r.conflicts d = true := by
  unfold overwrites
  cases m.dest with
  | none => simp
  | some d => simp

theorem Pending.blocked_iff :
    p.blocked ps = true ↔ ∃ q ∈ ps, q.index ≠ p.index ∧ p.move.overwrites q.move = true := by
  simp [Pending.blocked]

/-! ### What the rounds do -/

/-- The pending moves when a move was done. -/
def without (i : Nat) (ps : List Pending) : List Pending := ps.filter (·.index != i)

/-- A pending move when the source of a move was saved. -/
def Pending.saved (i : Nat) (q : Pending) : Pending :=
  if q.index == i then { q with move := { q.move with reads := [] } } else q

@[simp] theorem Pending.index_saved (i : Nat) (q : Pending) : (q.saved i).index = q.index := by
  unfold Pending.saved
  split <;> rfl

@[simp] theorem Pending.dest_saved (i : Nat) (q : Pending) :
    (q.saved i).move.dest = q.move.dest := by
  unfold Pending.saved
  split <;> rfl

theorem Pending.saved_of_ne {i : Nat} {q : Pending} (h : q.index ≠ i) : q.saved i = q := by
  simp [Pending.saved, h]

@[simp] theorem map_index_saved (i : Nat) (ps : List Pending) :
    (ps.map (Pending.saved i)).map (·.index) = ps.map (·.index) := by
  simp [Function.comp_def]

/-- Saving a source can only end that a move is overwritten. -/
theorem overwrites_of_saved {i j : Nat} (h : (p.saved i).move.overwrites (q.saved j).move = true) :
    p.move.overwrites q.move = true := by
  obtain ⟨d, hd, r, hr, hconflicts⟩ := overwrites_iff.mp h
  refine overwrites_iff.mpr ⟨d, by simpa using hd, r, ?_, hconflicts⟩
  unfold Pending.saved at hr
  split at hr
  · cases hr
  · exact hr

/-- **What the rounds do** with pending moves: the order of the moves, and the sources that are
saved. -/
inductive Schedules (last : Option Register) : List Pending → List Nat → List Nat → Prop
  | done : Schedules last [] [] []
  /-- A move is done that is not blocked. One into the last register is done only while all others
  are blocked. -/
  | move {ps : List Pending} {p : Pending} {order saves : List Nat} (mem : p ∈ ps)
    (ready : p.blocked ps = false)
      (patient : p.deferred last = true → ∀ q ∈ ps, q.deferred last = false → q.blocked ps = true)
      (rest : Schedules last (without p.index ps) order saves) : Schedules last ps
        (p.index :: order) saves
  /-- All moves are blocked, and a source is saved that another move overwrites. -/
  | save {ps : List Pending} {p q : Pending} {order saves : List Nat} (mem : p ∈ ps)
      (stuck : ∀ q ∈ ps, q.blocked ps = true) (hq : q ∈ ps) (other : q.index ≠ p.index)
      (overwritten : q.move.overwrites p.move = true)
      (rest : Schedules last (ps.map (Pending.saved p.index)) order saves) :
      Schedules last ps order (p.index :: saves)

/-- The move that is chosen is ready, and put off while others are ready. -/
theorem next?_eq_some (h : next? last ps = some p) :
    p ∈ ps ∧ p.blocked ps = false ∧
      (p.deferred last = true → ∀ q ∈ ps, q.deferred last = false → q.blocked ps = true) := by
  rcases Option.or_eq_some_iff.mp h with h | ⟨hnone, h⟩
  · obtain ⟨hmem, hready⟩ := List.mem_filter.mp (List.mem_of_find?_eq_some h)
    have hprompt := List.find?_some h
    refine ⟨hmem, by simpa using hready, fun hdeferred => ?_⟩
    rw [hdeferred] at hprompt
    cases hprompt
  · obtain ⟨hmem, hready⟩ := List.mem_filter.mp (List.mem_of_head? h)
    refine ⟨hmem, by simpa using hready, fun _ q hq hprompt => ?_⟩
    by_contra hfree
    have := List.find?_eq_none.mp hnone q (List.mem_filter.mpr ⟨hq, by simpa using hfree⟩)
    simp [hprompt] at this

/-- Where no move overwrites what is read and none is put off, the first one comes next. -/
theorem next?_of_free (hfree : ∀ x ∈ p :: ps, ∀ y ∈ p :: ps, x.move.overwrites y.move = false)
    (hready : ∀ x ∈ p :: ps, x.deferred last = false) : next? last (p :: ps) = some p := by
  have hblocked : p.blocked (p :: ps) = false := by
    rw [Bool.eq_false_iff]
    intro h
    obtain ⟨q, hq, -, hover⟩ := Pending.blocked_iff.mp h
    rw [hfree p (.head _) q hq] at hover
    cases hover
  simp [next?, hblocked, hready p (.head _)]

theorem blocked_of_next?_eq_none (h : next? last ps = none) (hq : q ∈ ps) :
    q.blocked ps = true := by
  obtain ⟨-, hnone⟩ := Option.or_eq_none_iff.mp h
  by_contra hfree
  have hmem : q ∈ ps.filter fun p => !p.blocked ps := List.mem_filter.mpr ⟨hq, by simpa using hfree⟩
  rw [List.head?_eq_none_iff.mp hnone] at hmem
  cases hmem

/-- Where moves are blocked there is a source to save. -/
theorem exists_cycle? (hp : p ∈ ps) (hblocked : p.blocked ps = true) :
    ∃ p, cycle? ps = some p ∧ p ∈ ps ∧ ∃ q ∈ ps, q.index ≠ p.index ∧
      q.move.overwrites p.move = true := by
  obtain ⟨q, hq, hne, hover⟩ := Pending.blocked_iff.mp hblocked
  have hsome : (cycle? ps).isSome := by
    refine List.find?_isSome.mpr ⟨q, hq, List.any_eq_true.mpr ⟨p, hp, ?_⟩⟩
    simp [hover, Ne.symm hne]
  obtain ⟨r, hr⟩ := Option.isSome_iff_exists.mp hsome
  have hfound := (List.find?_eq_some_iff_append.mp hr).1
  obtain ⟨s, hs, hrs⟩ := List.any_eq_true.mp hfound
  exact ⟨r, hr, List.mem_of_find?_eq_some hr, s, hs, by simpa using hrs⟩

/-! ### There are enough rounds -/

/-- Whether a move reads a register. -/
def Pending.isReading (p : Pending) : Bool := !p.move.reads.isEmpty

/-- How many rounds pending moves take at most: one for each, and one for each that reads a
register. -/
def weight (ps : List Pending) : Nat := ps.length + ps.countP Pending.isReading

theorem weight_without_lt (hp : p ∈ ps) : weight (without p.index ps) < weight ps := by
  have hlength : (without p.index ps).length < ps.length :=
    List.length_filter_lt_length_iff_exists.mpr ⟨p, hp, by simp⟩
  have hreading : (without p.index ps).countP Pending.isReading ≤ ps.countP Pending.isReading :=
    List.filter_sublist.countP_le
  unfold weight
  omega

theorem isReading_of_overwrites (h : q.move.overwrites p.move = true) : p.isReading = true := by
  obtain ⟨_, -, r, hr, -⟩ := overwrites_iff.mp h
  simpa [Pending.isReading] using List.ne_nil_of_mem hr

/-- No move reads more than before, and the one whose source was saved reads nothing any more. -/
theorem weight_saved_lt (hp : p ∈ ps) (hreading : p.isReading = true) :
    weight (ps.map (Pending.saved p.index)) < weight ps := by
  have hle : ∀ qs : List Pending, (qs.map (Pending.saved p.index)).countP Pending.isReading ≤
      qs.countP Pending.isReading := by
    intro qs
    rw [List.countP_map]
    refine List.countP_mono_left fun q _ hq => ?_
    by_cases hqp : q.index = p.index
    · simp [Pending.saved, Pending.isReading, hqp] at hq
    · simpa [Pending.saved, hqp] using hq
  obtain ⟨before, after, rfl⟩ := List.append_of_mem hp
  have hbefore := hle before
  have hafter := hle after
  have hself : (p.saved p.index).isReading = false := by simp [Pending.saved, Pending.isReading]
  simp only [weight, List.map_append, List.map_cons, List.length_append, List.length_cons,
    List.length_map,
    List.countP_append, List.countP_cons, hself, hreading, if_true, Bool.false_eq_true, if_false]
  omega

section Rounds

variable {rounds : Nat}

theorem orderRounds_of_move (hnext : next? last ps = some p)
    (hrest : orderRounds last rounds (without p.index ps) = .ok (order, saves)) :
    orderRounds last (rounds + 1) ps = .ok (p.index :: order, saves) := by
  cases ps with
  | nil => cases hnext
  | cons r rs =>
    simp only [orderRounds, hnext]
    exact congrArg (· >>= fun x => Except.ok (p.index :: x.1, x.2)) hrest

theorem orderRounds_of_save (hnext : next? last ps = none) (hcycle : cycle? ps = some p)
    (hrest : orderRounds last rounds (ps.map (Pending.saved p.index)) = .ok (order, saves)) :
    orderRounds last (rounds + 1) ps = .ok (order, p.index :: saves) := by
  cases ps with
  | nil => cases hcycle
  | cons r rs =>
    simp only [orderRounds, hnext, hcycle]
    exact congrArg (· >>= fun x => Except.ok (x.1, p.index :: x.2)) hrest

theorem orderRounds_of_free (hps : (ps.map (·.index)).Nodup) (hrounds : ps.length ≤ rounds)
    (hfree : ∀ x ∈ ps, ∀ y ∈ ps, x.move.overwrites y.move = false)
    (hready : ∀ x ∈ ps, x.deferred last = false) :
    orderRounds last rounds ps = .ok (ps.map (·.index), []) := by
  induction ps generalizing rounds with
  | nil => cases rounds <;> rfl
  | cons p ps ih =>
    cases rounds with
    | zero => simp at hrounds
    | succ rounds =>
      obtain ⟨hp, hps⟩ := List.nodup_cons.mp hps
      have hwithout : without p.index (p :: ps) = ps := by
        rw [without, List.filter_cons_of_neg (by simp)]
        refine List.filter_eq_self.mpr fun q hq => bne_iff_ne.mpr fun he => hp ?_
        exact List.mem_map.mpr ⟨q, hq, he⟩
      refine orderRounds_of_move (next?_of_free hfree hready) ?_
      rw [hwithout]
      exact ih hps (by simpa using hrounds) (fun x hx y hy => hfree x (.tail _ hx) y (.tail _ hy))
        fun x hx => hready x (.tail _ hx)

end Rounds

/-- **There is always a next round**, and the rounds end. -/
theorem exists_schedule (last : Option Register) {rounds : Nat} (h : weight ps ≤ rounds) :
    ∃ order saves, orderRounds last rounds ps = .ok (order, saves) ∧
      Schedules last ps order saves := by
  induction rounds generalizing ps with
  | zero =>
    have hnil : ps = [] := List.eq_nil_of_length_eq_zero (by unfold weight at h; omega)
    subst hnil
    exact ⟨[], [], rfl, .done⟩
  | succ rounds ih =>
    cases hnext : next? last ps with
    | some p =>
      obtain ⟨hmem, hready, hpatient⟩ := next?_eq_some hnext
      have hless := weight_without_lt hmem
      obtain ⟨order, saves, hrest, hschedule⟩ :=
        ih (show weight (without p.index ps) ≤ rounds by omega)
      exact ⟨_, _, orderRounds_of_move hnext hrest, .move hmem hready hpatient hschedule⟩
    | none =>
      have hstuck : ∀ q ∈ ps, q.blocked ps = true := fun q hq => blocked_of_next?_eq_none hnext hq
      cases ps with
      | nil => exact ⟨[], [], rfl, .done⟩
      | cons r rs =>
        obtain ⟨p, hcycle, hmem, q, hq, hother, hover⟩ :=
          exists_cycle? (.head rs) (hstuck r (.head rs))
        have hless := weight_saved_lt hmem (isReading_of_overwrites hover)
        obtain ⟨order, saves, hrest, hschedule⟩ :=
          ih (show weight ((r :: rs).map (Pending.saved p.index)) ≤ rounds by omega)
        exact ⟨_, _, orderRounds_of_save hnext hcycle hrest,
          .save hmem hstuck hq hother hover hschedule⟩

/-! ### Schedules -/

namespace Schedules

/-- Each move is done once. -/
theorem perm (h : Schedules last ps order saves) (hps : (ps.map (·.index)).Nodup) :
    order.Perm (ps.map (·.index)) := by
  induction h with
  | done => exact .nil
  | @move ps p order saves mem _ _ _ ih =>
    have hsub : ((without p.index ps).map (·.index)).Sublist (ps.map (·.index)) :=
      List.filter_sublist.map _
    have hrest := ih (hsub.nodup hps)
    have hwithout : (without p.index ps).map (·.index) = (ps.map (·.index)).erase p.index := by
      rw [hps.erase_eq_filter, without, List.filter_map]
      rfl
    rw [hwithout] at hrest
    exact (hrest.cons p.index).trans (List.perm_cons_erase (List.mem_map_of_mem mem)).symm
  | @save ps p q order saves mem _ _ _ _ _ ih =>
    rw [map_index_saved] at ih
    exact ih hps

/-- Only sources of moves that read something are saved. -/
theorem isReading_of_mem_saves (h : Schedules last ps order saves) {i : Nat} (hi : i ∈ saves) :
    ∃ p ∈ ps, p.index = i ∧ p.isReading = true := by
  induction h with
  | done => cases hi
  | move _ _ _ _ ih =>
    obtain ⟨q, hq, hqi⟩ := ih hi
    exact ⟨q, (List.mem_filter.mp hq).1, hqi⟩
  | @save ps p q order saves mem _ _ _ overwritten _ ih =>
    rcases List.mem_cons.mp hi with rfl | hi
    · exact ⟨p, mem, rfl, isReading_of_overwrites overwritten⟩
    · obtain ⟨r, hr, rfl, hreading⟩ := ih hi
      obtain ⟨s, hs, rfl⟩ := List.mem_map.mp hr
      refine ⟨s, hs, (Pending.index_saved ..).symm, ?_⟩
      unfold Pending.saved at hreading
      split at hreading
      · cases hreading
      · exact hreading

theorem nodup_saves (h : Schedules last ps order saves) : saves.Nodup := by
  induction h with
  | done => exact .nil
  | move _ _ _ _ ih => exact ih
  | @save ps p q order saves _ _ _ _ _ rest ih =>
    refine List.nodup_cons.mpr ⟨fun hmem => ?_, ih⟩
    obtain ⟨r, hr, hindex, hreading⟩ := rest.isReading_of_mem_saves hmem
    obtain ⟨s, -, rfl⟩ := List.mem_map.mp hr
    rw [Pending.index_saved] at hindex
    simp [Pending.saved, Pending.isReading, hindex] at hreading

theorem mem_of_mem_order (h : Schedules last ps order saves) {i : Nat} (hi : i ∈ order) :
    ∃ p ∈ ps, p.index = i := by
  induction h with
  | done => cases hi
  | @move ps p order saves mem _ _ _ ih =>
    rcases List.mem_cons.mp hi with rfl | hi
    · exact ⟨p, mem, rfl⟩
    · obtain ⟨q, hq, hqi⟩ := ih hi
      exact ⟨q, (List.mem_filter.mp hq).1, hqi⟩
  | save _ _ _ _ _ _ ih =>
    obtain ⟨q, hq, rfl⟩ := ih hi
    obtain ⟨r, hr, rfl⟩ := List.mem_map.mp hq
    exact ⟨r, hr, (Pending.index_saved ..).symm⟩

/-- **A move overwrites nothing that a later one reads**, unless the source of that one was
saved. -/
theorem pairwise_order (h : Schedules last ps order saves) (hps : (ps.map (·.index)).Nodup) :
    order.Pairwise fun i j => ∀ p ∈ ps, ∀ q ∈ ps, p.index = i → q.index = j →
      p.move.overwrites q.move = true → j ∈ saves := by
  induction h with
  | done => exact .nil
  | @move ps p order saves mem ready _ rest ih =>
    have hsub : ((without p.index ps).map (·.index)).Sublist (ps.map (·.index)) :=
      List.filter_sublist.map _
    have hothers : ∀ {i}, i ∈ order → i ≠ p.index := by
      intro i hi
      obtain ⟨q, hq, rfl⟩ := rest.mem_of_mem_order hi
      simpa using (List.mem_filter.mp hq).2
    refine List.pairwise_cons.mpr ⟨fun j hj r hr q hq hri hqj hover => ?_, ?_⟩
    · -- the move that is done now is ready
      have hrp : r = p := List.inj_on_of_nodup_map hps hr mem hri
      have hblocked : p.blocked ps = true :=
        Pending.blocked_iff.mpr ⟨q, hq, hqj ▸ hothers hj, hrp ▸ hover⟩
      rw [ready] at hblocked
      cases hblocked
    · refine (ih (hsub.nodup hps)).imp_of_mem fun hi hj hrest r hr q hq hri hqj => ?_
      exact hrest r (List.mem_filter.mpr ⟨hr, by simpa [hri] using hothers hi⟩)
        q (List.mem_filter.mpr ⟨hq, by simpa [hqj] using hothers hj⟩) hri hqj
  | @save ps p q order saves mem _ _ _ _ _ ih =>
    rw [map_index_saved] at ih
    refine (ih hps).imp fun hrest r hr s hs hri hsj hover => ?_
    by_cases hsp : s.index = p.index
    · exact hsj ▸ hsp ▸ .head _
    · refine .tail _ (hrest _ (List.mem_map_of_mem hr) _ (List.mem_map_of_mem hs)
        (by simpa using hri) (by simpa using hsj) ?_)
      rw [overwrites_iff, Pending.dest_saved, Pending.saved_of_ne hsp]
      exact overwrites_iff.mp hover

/-- **Moves that are put off wait**: when one is done, each later one that is not put off overwrites
what a pending one reads. -/
theorem overwrites_of_deferred (h : Schedules last ps order saves) (hps : (ps.map (·.index)).Nodup)
    {before after : List Nat} {i : Nat} (horder : order = before ++ i :: after) (hp : p ∈ ps)
    (hi : p.index = i)
    (hdeferred : p.deferred last = true) (hq : q ∈ ps) (hafter : q.index ∈ after)
    (hprompt : q.deferred last = false) :
    ∃ r ∈ ps, r.index ∈ i :: after ∧ r.index ≠ q.index ∧ q.move.overwrites r.move = true := by
  induction h generalizing before p q with
  | done => simp at horder
  | @move ps s order saves mem _ patient rest ih =>
    have hsub : ((without s.index ps).map (·.index)).Sublist (ps.map (·.index)) :=
      List.filter_sublist.map _
    have hothers : ∀ {r : Pending}, r ∈ ps → r.index ∈ order → r ∈ without s.index ps := by
      intro r hr hmem
      obtain ⟨t, ht, htr⟩ := rest.mem_of_mem_order hmem
      rwa [← List.inj_on_of_nodup_map hps (List.mem_filter.mp ht).1 hr htr]
    cases before with
    | nil =>
      obtain ⟨rfl, rfl⟩ := List.cons.inj horder
      obtain rfl : p = s := List.inj_on_of_nodup_map hps hp mem hi
      obtain ⟨r, hr, hne, hover⟩ := Pending.blocked_iff.mp (patient hdeferred q hq hprompt)
      have hmem := ((Schedules.move mem ‹_› patient rest).perm hps).mem_iff.mpr
        (List.mem_map_of_mem hr)
      exact ⟨r, hr, hmem, hne, hover⟩
    | cons b before =>
      obtain ⟨-, horder⟩ := List.cons.inj horder
      obtain ⟨r, hr, hmem, hne, hover⟩ :=
        ih (hsub.nodup hps) horder (hothers hp (by simp [horder, hi])) hi hdeferred
        (hothers hq (by simp [horder, hafter])) hafter hprompt
      exact ⟨r, (List.mem_filter.mp hr).1, hmem, hne, hover⟩
  | @save ps s t order saves _ _ _ _ _ _ ih =>
    rw [map_index_saved] at ih
    obtain ⟨r, hr, hmem, hne, hover⟩ := ih hps horder (List.mem_map_of_mem hp) (by simpa using hi)
      (by simpa [Pending.deferred] using hdeferred) (List.mem_map_of_mem hq) (by simpa using hafter)
      (by simpa [Pending.deferred] using hprompt)
    obtain ⟨r, hr', rfl⟩ := List.mem_map.mp hr
    rw [Pending.index_saved] at hmem hne
    exact ⟨r, hr', hmem, by simpa using hne, overwrites_of_saved hover⟩

/-- Where no move overwrites what is read, no source is saved. -/
theorem saves_eq_nil (h : Schedules last ps order saves)
    (hfree : ∀ p ∈ ps, ∀ q ∈ ps, p.move.overwrites q.move = false) : saves = [] := by
  induction h with
  | done => rfl
  | move _ _ _ _ ih =>
    exact ih fun p hp q hq => hfree p (List.mem_filter.mp hp).1 q (List.mem_filter.mp hq).1
  | save mem _ hq _ overwritten _ _ =>
    rw [hfree _ hq _ mem] at overwritten
    cases overwritten

end Schedules

/-! ### Moves in sequence -/

/-- What a move can read or write: a unit of the machine, or a cell of memory. -/
inductive Spot (κ : Type) where
  | unit (u : Register)
  | memory (k : κ)

/-- **What moves mean**: the cells of memory that each one writes, if it does not write a register,
and what it brings to a spot, by what is held everywhere. -/
structure Meaning (κ β : Type) where
  cells : Nat → κ → Bool
  value : Nat → (Spot κ → β) → Spot κ → β

section Meaning

variable {κ β : Type} {moves : List ParallelMove} {M : Meaning κ β} {start held : Spot κ → β}
  {is : List Nat} {i : Nat} {s : Spot κ}

variable (moves M) in
/-- Whether the move at a position writes to a spot. -/
def Meaning.writes (i : Nat) : Spot κ → Bool
  | .unit u => moves[i]?.any fun m => m.dest.any fun d => d.units.contains u
  | .memory k => moves[i]?.any fun m => m.dest.isNone && M.cells i k

variable (moves M) in
/-- No two moves write into conflicting registers, or to one cell of memory. -/
structure Meaning.Apart : Prop where
  registers (i j : Nat) (m n : ParallelMove) : i ≠ j → moves[i]? = some m → moves[j]? = some n →
    Register.clash m.dest n.dest = false
  memory (i j : Nat) (k : κ) : i ≠ j → M.writes moves i (.memory k) = true →
    M.writes moves j (.memory k) = false

variable (moves M) in
/-- What a move brings depends on the registers that it reads, and on memory that no move writes. -/
def Meaning.Local : Prop :=
  ∀ i m, moves[i]? = some m → ∀ held held' : Spot κ → β,
    (∀ r ∈ m.reads, ∀ u ∈ r.units, held (.unit u) = held' (.unit u)) →
    (∀ k, (∀ j, M.writes moves j (.memory k) = false) → held (.memory k) = held' (.memory k)) →
    M.value i held = M.value i held'

variable (moves M) in
/-- What a move leaves behind that brings what it finds in `source`. -/
def Meaning.write (i : Nat) (source held : Spot κ → β) (s : Spot κ) : β :=
  if M.writes moves i s then M.value i source s else held s

variable (moves M) in
/-- **What moves in sequence leave behind.** Sources that were saved are what they were at the
start. -/
def performed (saves : List Nat) (start : Spot κ → β) : List Nat → (Spot κ → β) → Spot κ → β
  | [], held => held
  | i :: is, held =>
    performed saves start is (M.write moves i (if saves.contains i then start else held) held)

/-- Spots that no move writes keep what they hold. -/
theorem performed_of_not_writes (h : ∀ i ∈ is, M.writes moves i s = false) :
    performed moves M saves start is held s = held s := by
  induction is generalizing held with
  | nil => rfl
  | cons i is ih =>
    rw [performed, ih fun j hj => h j (.tail _ hj)]
    simp [Meaning.write, h i (.head _)]

theorem writes_unit_iff {u : Register} :
    M.writes moves i (.unit u) = true ↔ ∃ m d, moves[i]? = some m ∧ m.dest = some d ∧
      u ∈ d.units := by
  simp [Meaning.writes, Option.any_eq_true]

/-- A spot is written by one move only. -/
theorem Meaning.Apart.writes_eq_false (h : M.Apart moves) {j : Nat} (hne : i ≠ j)
    (hi : M.writes moves i s = true) :
    M.writes moves j s = false := by
  cases s with
  | unit u =>
    rw [Bool.eq_false_iff]
    intro hj
    obtain ⟨m, d, hm, hd, hu⟩ := writes_unit_iff.mp hi
    obtain ⟨n, e, hn, he, hu'⟩ := writes_unit_iff.mp hj
    have hapart := h.registers i j m n hne hm hn
    rw [hd, he, Register.clash_some, Register.conflicts_of_mem_units hu hu'] at hapart
    cases hapart
  | memory k => exact h.memory i j k hne hi

/-- A move that does not overwrite another one writes no unit that this one reads. -/
theorem writes_unit_eq_false {m n : ParallelMove} (hm : moves[i]? = some m)
    (hover : m.overwrites n = false)
    {r u : Register} (hr : r ∈ n.reads) (hu : u ∈ r.units) :
    M.writes moves i (.unit u) = false := by
  rw [Bool.eq_false_iff]
  intro hwrites
  obtain ⟨m', d, hm', hd, hud⟩ := writes_unit_iff.mp hwrites
  obtain rfl := Option.some.inj (hm.symm.trans hm')
  have := overwrites_iff.mpr ⟨d, hd, r, hr, Register.conflicts_of_mem_units hu hud⟩
  rw [hover] at this
  cases this

/-- **Each move brings what it brought at the start**, if none overwrites what a later one reads
whose source was not saved. -/
theorem performed_of_writes (happart : M.Apart moves) (hlocal : M.Local moves)
    (hpair : is.Pairwise fun i j => i ≠ j ∧ ∀ m n, moves[i]? = some m → moves[j]? = some n →
      m.overwrites n = true → j ∈ saves)
    (hunits : ∀ i ∈ is, i ∉ saves → ∀ m, moves[i]? = some m → ∀ r ∈ m.reads, ∀ u ∈ r.units,
      held (.unit u) = start (.unit u))
    (hmemory : ∀ k, (∀ j, M.writes moves j (.memory k) = false) →
      held (.memory k) = start (.memory k))
    (hi : i ∈ is) (hwrites : M.writes moves i s = true) :
    performed moves M saves start is held s = M.value i start s := by
  -- the invariant: the moves to come still read what they would have read at the start
  induction is generalizing held with
  | nil => cases hi
  | cons j js ih =>
    obtain ⟨hlater, hpair⟩ := List.pairwise_cons.mp hpair
    rw [performed]
    rcases List.mem_cons.mp hi with rfl | hi
    · have hothers : ∀ k ∈ js, M.writes moves k s = false :=
        fun k hk => happart.writes_eq_false (hlater k hk).1 hwrites
      rw [performed_of_not_writes hothers, Meaning.write, if_pos hwrites]
      split
      · rfl
      · rename_i hsaved
        obtain ⟨m, hm⟩ : ∃ m, moves[i]? = some m := by
          cases hmi : moves[i]? with
          | some m => exact ⟨m, rfl⟩
          | none => cases s <;> simp [Meaning.writes, hmi] at hwrites
        rw [hlocal i m hm held start (hunits i (.head _) (by simpa using hsaved) m hm) hmemory]
    · refine ih hpair (fun k hk hsaved n hn r hr u hu => ?_) (fun k hk => ?_) hi
      · rw [Meaning.write]
        have hkeeps : M.writes moves j (.unit u) = false := by
          cases hmj : moves[j]? with
          | none => simp [Meaning.writes, hmj]
          | some m =>
            refine writes_unit_eq_false hmj ?_ hr hu
            exact Bool.eq_false_iff.mpr fun hover => hsaved ((hlater k hk).2 m n hmj hn hover)
        rw [hkeeps]
        exact hunits k (.tail _ hk) hsaved n hn r hr u hu
      · rw [Meaning.write, hk j]
        exact hmemory k hk

end Meaning

/-! ### The order -/

/-- The moves with their positions. -/
def pendings (moves : List ParallelMove) : List Pending := moves.zipIdx.map fun (m, i) => ⟨i, m⟩

theorem mem_pendings {moves : List ParallelMove} :
    p ∈ pendings moves ↔ moves[p.index]? = some p.move := by
  constructor
  · intro hp
    obtain ⟨⟨m, i⟩, hmem, rfl⟩ := List.mem_map.mp hp
    exact List.mem_zipIdx_iff_getElem?.mp hmem
  · intro hp
    exact List.mem_map.mpr ⟨(p.move, p.index), List.mem_zipIdx_iff_getElem?.mpr hp, rfl⟩

theorem map_index_pendings (moves : List ParallelMove) :
    (pendings moves).map (·.index) = List.range moves.length := by
  rw [pendings, List.map_map, List.range_eq_range', ← List.zipIdx_map_snd]
  rfl

/-- Parallel moves have a schedule, which is their order. -/
theorem exists_order (moves : List ParallelMove) (last : Option Register) :
    ∃ is saves, ParallelMove.order moves last = .ok (is, saves) ∧
      Schedules last (pendings moves) is saves := by
  refine exists_schedule last ?_
  have hle : (pendings moves).countP Pending.isReading ≤ (pendings moves).length :=
    List.countP_le_length
  have hlength : (pendings moves).length = moves.length := by simp [pendings]
  change weight (pendings moves) ≤ 2 * moves.length
  unfold weight
  omega

/-- **Moves that do not interfere are done in turn.** -/
theorem order_of_free {moves : List ParallelMove}
    (hfree : ∀ x ∈ moves, ∀ y ∈ moves, x.overwrites y = false)
    (hready : ∀ x ∈ moves, Register.clash x.dest last = false) :
    ParallelMove.order moves last = .ok (List.range moves.length, []) := by
  have hmem : ∀ x ∈ pendings moves, x.move ∈ moves :=
    fun x hx => List.mem_of_getElem? (mem_pendings.mp hx)
  have hindex := map_index_pendings moves
  have hlength : (pendings moves).length = moves.length := by simp [pendings]
  rw [← hindex]
  show orderRounds last (2 * moves.length) (pendings moves) = _
  refine orderRounds_of_free ?_ (by omega) (fun x hx y hy => hfree _ (hmem x hx) _ (hmem y hy))
    fun x hx => hready _ (hmem x hx)
  rw [hindex]
  exact List.nodup_range

/-- **The order makes a sequence of moves out of parallel ones.** It is found for any moves, takes
each once, and saves each source at most once. A move overwrites nothing that a later one reads,
unless the source of that one was saved. So moves that write to different places, done in this order
from saved sources, bring what they would bring at the start, and leave the rest alone. A move into
a register in conflict with the last one is done only while all pending moves into others are
blocked. -/
theorem order_sequentializes (moves : List ParallelMove) (last : Option Register) :
    ∃ is saves, ParallelMove.order moves last = .ok (is, saves) ∧
      is.Perm (List.range moves.length) ∧ saves.Nodup ∧ (∀ i ∈ saves, i < moves.length) ∧
      (is.Pairwise fun i j => ∀ m n, moves[i]? = some m → moves[j]? = some n →
        (∃ d, m.dest = some d ∧ ∃ r ∈ n.reads, r.conflicts d = true) → j ∈ saves) ∧
      (∀ (κ β : Type) (M : Meaning κ β), M.Apart moves → M.Local moves → ∀ start : Spot κ → β,
        (∀ i s, M.writes moves i s = true → performed moves M saves start is start s =
          M.value i start s) ∧
        (∀ s, (∀ i, M.writes moves i s = false) → performed moves M saves start is start s =
          start s)) ∧
      (∀ before i after, is = before ++ i :: after → ∀ m, moves[i]? = some m →
        Register.clash m.dest last = true →
        ∀ j ∈ after, ∀ n, moves[j]? = some n → Register.clash n.dest last = false →
          ∃ k ∈ i :: after, k ≠ j ∧ ∃ o, moves[k]? = some o ∧ n.overwrites o = true) ∧
      Schedules last (pendings moves) is saves := by
  obtain ⟨is, saves, horder, hschedule⟩ := exists_order moves last
  have hnodup : ((pendings moves).map (·.index)).Nodup :=
    map_index_pendings moves ▸ List.nodup_range
  have hperm : is.Perm (List.range moves.length) := map_index_pendings moves ▸ hschedule.perm hnodup
  have hpair : is.Pairwise fun i j => ∀ m n, moves[i]? = some m → moves[j]? = some n →
      m.overwrites n = true → j ∈ saves :=
    (hschedule.pairwise_order hnodup).imp fun h m n hm hn =>
      h ⟨_, m⟩ (mem_pendings.mpr hm) ⟨_, n⟩ (mem_pendings.mpr hn) rfl rfl
  refine ⟨is, saves, horder, hperm, hschedule.nodup_saves, fun i hi => ?_, ?_, ?_, ?_, hschedule⟩
  · obtain ⟨p, hp, rfl, -⟩ := hschedule.isReading_of_mem_saves hi
    exact (List.getElem?_eq_some_iff.mp (mem_pendings.mp hp)).1
  · exact hpair.imp fun h m n hm hn hover => h m n hm hn (overwrites_iff.mpr hover)
  · intro κ β M happart hlocal start
    refine ⟨fun i s hwrites => ?_, fun s hs => performed_of_not_writes fun i _ => hs i⟩
    have hi : i ∈ is := by
      rw [hperm.mem_iff, List.mem_range]
      by_contra hlarge
      have hnone : moves[i]? = none := List.getElem?_eq_none (by omega)
      cases s <;> simp [Meaning.writes, hnone] at hwrites
    exact performed_of_writes happart hlocal ((hperm.nodup_iff.mpr List.nodup_range).and hpair)
      (fun _ _ _ _ _ _ _ _ _ => rfl) (fun _ _ => rfl) hi hwrites
  · intro before i after his m hm hdeferred j hj n hn hprompt
    obtain ⟨r, hr, hmem, hne, hover⟩ := hschedule.overwrites_of_deferred hnodup his
      (mem_pendings (p := ⟨i, m⟩).mpr hm) rfl hdeferred
        (mem_pendings (p := ⟨j, n⟩).mpr hn) hj hprompt
    exact ⟨r.index, hmem, hne, r.move, mem_pendings.mp hr, hover⟩

open Intel in
/-- Two pairs whose values are to change places. -/
def exchange : List ParallelMove := [⟨some hl, [de]⟩, ⟨some de, [hl]⟩]

open Intel in
/-- Each byte of a pair goes to the byte of the other one. -/
def exchanged : Meaning Empty Int where
  cells _ _ := false
  value i held
    | .unit u => held (.unit (if i = 0 then (if u = l then e else d) else (if u = e then l else h)))
    | .memory k => held (.memory k)

open Intel in
theorem order_exchange :
    ParallelMove.order exchange none = .ok ([1, 0], [0]) ∧
      ∀ start : Spot Empty → Int, ∀ held, held = performed exchange exchanged [0] start
        [1, 0] start →
        held (.unit l) = start (.unit e) ∧ held (.unit h) = start (.unit d) ∧
        held (.unit e) = start (.unit l) ∧ held (.unit d) = start (.unit h) ∧
        held (.unit a) = start (.unit a) := by
  have horder : ParallelMove.order exchange none = .ok ([1, 0], [0]) := by decide +kernel
  obtain ⟨is, saves, hfound, -, -, -, -, hperformed, -⟩ := order_sequentializes exchange none
  obtain ⟨rfl, rfl⟩ := Prod.mk.inj (Except.ok.inj (horder.symm.trans hfound))
  have hwrites : ∀ i u, exchanged.writes exchange i (.unit u) = true ↔
      i = 0 ∧ (u = l ∨ u = h) ∨ i = 1 ∧ (u = e ∨ u = d) := by
    intro i u
    rcases i with - | - | i <;>
      simp [Meaning.writes, exchange, Register.units, hl, de, Register.isPair, Register.parts]
  have happart : exchanged.Apart exchange := by
    constructor
    case registers =>
      intro i j m n hne hm hn
      rcases i with - | - | i <;> rcases j with - | - | j <;> simp_all [exchange] <;>
        subst hm hn <;> decide
    case memory => exact fun _ _ k => k.elim
  have hlocal : exchanged.Local exchange := by
    intro i m hm held held' hunits _
    funext s
    cases s with
    | memory k => exact k.elim
    | unit u =>
      rcases i with - | - | i
      · obtain rfl := Option.some.inj hm
        by_cases hu : u = l <;>
          simp [exchanged, hu, hunits de (.head _), Register.units, de, Register.isPair,
            Register.parts]
      · obtain rfl := Option.some.inj hm
        by_cases hu : u = e <;>
          simp [exchanged, hu, hunits hl (.head _), Register.units, hl, Register.isPair,
            Register.parts]
      · cases hm
  refine ⟨horder, fun start held hheld => ?_⟩
  obtain ⟨hwritten, hkept⟩ := hperformed Empty Int exchanged happart hlocal start
  subst hheld
  refine ⟨?_, ?_, ?_, ?_, ?_⟩
  · exact hwritten 0 _ ((hwrites 0 l).mpr (by decide))
  · exact hwritten 0 _ ((hwrites 0 h).mpr (by decide))
  · exact hwritten 1 _ ((hwrites 1 e).mpr (by decide))
  · exact hwritten 1 _ ((hwrites 1 d).mpr (by decide))
  · exact hkept _ fun i => Bool.eq_false_iff.mpr fun h =>
      absurd ((hwrites i a).mp h) (by simp [a, l, Intel.h, e, d])

end ParallelMove

end Octet
