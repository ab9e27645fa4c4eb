import Mathlib
import Octet.Build.Draft

/-!
# The table of cells

Cells that are asked for are kept by name: a name is in the table once, at the largest size asked
for. String literals stand between them and are not part of the table; each is added at the end,
whatever its name.

While code is built the ledger only grows. Scratch cells are the only cells that are asked for then,
all of the size of a word, and names that are used and defined elsewhere are added.

## Main definitions

* `Request`, `Assembly.Cell.request` — asking for a cell, and the cells after a request
* `Assembly.Cell.Tabulates` — the cells are a table of what was asked for
* `Ledger.names`, `Ledger.Grows` — the names of a ledger, and what building code does to it

## Main results

* `Assembly.Cell.Tabulates.request`, `Assembly.Cell.Tabulates.append_literals` — the table stays a
  table
* `Assembly.Cell.Tabulates.nodup_names_iff` — when all cells have names of their own
* `Ledger.Grows.trans`, `Ledger.Grows.subset` — a ledger that grows keeps its names
-/

namespace Octet

open Assembly

/-- A request for a cell. -/
structure Request where
  name : String
  size : Int
  segment : Segment

namespace Assembly.Cell

variable {cells : List Cell} {asked : List Request} {q : Request} {c : Cell} {n : String}

/-- Whether the cell was asked for by a name. The others are string literals. -/
def isAsked (c : Cell) (name : String) : Bool := c.name == name && c.init.isEmpty

theorem isAsked_iff : c.isAsked n = true ↔ c.name = n ∧ c.init = [] := by
  simp [isAsked]

/-- The cells that were asked for, without the string literals. -/
def table (cells : List Cell) : List Cell := cells.filter (·.init.isEmpty)

/-- The string literals among the cells. -/
def literals (cells : List Cell) : List Cell := cells.filter (!·.init.isEmpty)

/-- **The cells are a table of what was asked for**: one cell for each name, at the largest size
asked for. -/
structure Tabulates (asked : List Request) (cells : List Cell) : Prop where
  distinct : ((table cells).map (·.name)).Nodup
  names : ∀ n, n ∈ (table cells).map (·.name) ↔ n ∈ asked.map (·.name)
  largest : ∀ c ∈ table cells, (∃ q ∈ asked, q.name = c.name ∧ q.size = c.size) ∧
    ∀ q ∈ asked, q.name = c.name → q.size ≤ c.size

theorem tabulates_nil : Tabulates [] [] := ⟨.nil, by simp [table], by simp [table]⟩

theorem table_append (cells others : List Cell) :
    table (cells ++ others) = table cells ++ table others :=
  List.filter_append ..

theorem any_isAsked_iff : cells.any (·.isAsked n) = true ↔ n ∈ (table cells).map (·.name) := by
  simp only [List.any_eq_true, isAsked_iff, table, List.mem_map, List.mem_filter, List.isEmpty_iff]
  constructor
  · rintro ⟨c, hc, rfl, hinit⟩
    exact ⟨c, ⟨hc, hinit⟩, rfl⟩
  · rintro ⟨c, ⟨hc, hinit⟩, rfl⟩
    exact ⟨c, hc, rfl, hinit⟩

/-- The cell after a request. -/
def grown (q : Request) (c : Cell) : Cell :=
  if c.isAsked q.name then { c with size := max c.size q.size } else c

@[simp] theorem name_grown (q : Request) (c : Cell) : (grown q c).name = c.name := by
  unfold grown
  split <;> rfl

@[simp] theorem init_grown (q : Request) (c : Cell) : (grown q c).init = c.init := by
  unfold grown
  split <;> rfl

theorem table_map_grown (q : Request) (cells : List Cell) :
    table (cells.map (grown q)) = (table cells).map (grown q) := by
  rw [table, List.filter_map, table]
  simp [Function.comp_def]

theorem literals_map_grown (q : Request) (cells : List Cell) :
    literals (cells.map (grown q)) = literals cells := by
  rw [literals, List.filter_map, literals]
  refine List.map_congr_left (fun c hc => ?_) |>.trans (List.map_id _) |>.trans
    (by simp [Function.comp_def])
  have hinit : c.init ≠ [] := by simpa using (List.mem_filter.mp hc).2
  simp [grown, isAsked, hinit]

/-- A cell that is asked for again. -/
theorem Tabulates.again (h : Tabulates asked cells) (hq : q.name ∈ (table cells).map (·.name)) :
    Tabulates (asked ++ [q]) (cells.map (grown q)) := by
  have hnames : ((table cells).map (grown q)).map (·.name) = (table cells).map (·.name) := by
    simp [Function.comp_def]
  refine ⟨?_, fun n => ?_, fun c hc => ?_⟩
  · rw [table_map_grown, hnames]
    exact h.distinct
  · rw [table_map_grown, hnames, h.names, List.map_append, List.mem_append]
    refine ⟨.inl, fun hn => hn.elim id fun hn => ?_⟩
    rw [List.mem_singleton.mp hn]
    exact (h.names _).mp hq
  · rw [table_map_grown] at hc
    obtain ⟨d, hd, rfl⟩ := List.mem_map.mp hc
    have hinit : d.init = [] := by simpa [table] using (List.mem_filter.mp hd).2
    obtain ⟨⟨r, hr, hname, hsize⟩, hlargest⟩ := h.largest d hd
    rw [name_grown]
    by_cases hdq : d.name = q.name
    · have hgrown : (grown q d).size = max d.size q.size := by simp [grown, isAsked, hdq, hinit]
      rw [hgrown]
      constructor
      · rcases le_total q.size d.size with hle | hle
        · exact ⟨r, List.mem_append_left _ hr, hname, by rw [max_eq_left hle, hsize]⟩
        · exact ⟨q, by simp, hdq.symm, (max_eq_right hle).symm⟩
      · intro r hr hname
        rcases List.mem_append.mp hr with hr | hr
        · exact (hlargest r hr hname).trans (le_max_left _ _)
        · rw [List.mem_singleton.mp hr]
          exact le_max_right _ _
    · have hgrown : grown q d = d := by simp [grown, isAsked, hdq]
      rw [hgrown]
      refine ⟨⟨r, List.mem_append_left _ hr, hname, hsize⟩, fun r hr hname => ?_⟩
      rcases List.mem_append.mp hr with hr | hr
      · exact hlargest r hr hname
      · exact absurd (List.mem_singleton.mp hr ▸ hname).symm hdq

/-- A cell that is asked for the first time. -/
theorem Tabulates.first (h : Tabulates asked cells) (hq : q.name ∉ (table cells).map (·.name)) :
    Tabulates (asked ++ [q]) (cells ++ [⟨q.name, q.size, [], q.segment⟩]) := by
  have htable : table (cells ++ [⟨q.name, q.size, [], q.segment⟩]) = table cells ++
      [⟨q.name, q.size, [], q.segment⟩] :=
    table_append ..
  refine ⟨?_, fun n => ?_, fun c hc => ?_⟩
  · rw [htable, List.map_append]
    refine List.nodup_append.mpr ⟨h.distinct, by simp, ?_⟩
    rintro n hn m hm rfl
    obtain rfl : n = q.name := List.mem_singleton.mp hm
    exact hq hn
  · rw [htable, List.map_append, List.map_append, List.mem_append, List.mem_append, h.names]
    rfl
  · rw [htable] at hc
    rcases List.mem_append.mp hc with hc | hc
    · obtain ⟨⟨r, hr, hr'⟩, hlargest⟩ := h.largest c hc
      refine ⟨⟨r, List.mem_append_left _ hr, hr'⟩, fun r hr hname => ?_⟩
      rcases List.mem_append.mp hr with hr | hr
      · exact hlargest r hr hname
      · rw [List.mem_singleton.mp hr] at hname
        exact absurd (List.mem_map.mpr ⟨c, hc, hname.symm⟩) hq
    · rw [List.mem_singleton.mp hc]
      refine ⟨⟨q, by simp, rfl, rfl⟩, fun r hr hname => ?_⟩
      rcases List.mem_append.mp hr with hr | hr
      · exact absurd ((h.names _).mpr (List.mem_map.mpr ⟨r, hr, hname⟩)) hq
      · rw [List.mem_singleton.mp hr]

/-- The cells after a request. -/
def request (cells : List Cell) (q : Request) : List Cell :=
  if cells.any (·.isAsked q.name) then cells.map (grown q) else cells ++
    [⟨q.name, q.size, [], q.segment⟩]

/-- **A table stays a table.** -/
theorem Tabulates.request (h : Tabulates asked cells) (q : Request) :
    Tabulates (asked ++ [q]) (Cell.request cells q) := by
  unfold Cell.request
  split
  · rename_i hany
    exact h.again (any_isAsked_iff.mp hany)
  · rename_i hany
    exact h.first fun hmem => hany (any_isAsked_iff.mpr hmem)

theorem Tabulates.requests (h : Tabulates asked cells) (qs : List Request) :
    Tabulates (asked ++ qs) (qs.foldl Cell.request cells) := by
  induction qs generalizing asked cells with
  | nil => simpa using h
  | cons q qs ih => simpa using ih (h.request q)

/-- String literals are not part of the table. -/
theorem Tabulates.append_literals (h : Tabulates asked cells) {new : List Cell}
    (hnew : ∀ c ∈ new, c.init ≠ []) :
    Tabulates asked (cells ++ new) := by
  have htable : table (cells ++ new) = table cells := by
    rw [table_append, List.append_right_eq_self]
    simpa [table] using hnew
  exact ⟨htable ▸ h.distinct, htable ▸ h.names, htable ▸ h.largest⟩

/-- String literals are added to those before. -/
theorem literals_append {new : List Cell} (hnew : ∀ c ∈ new, c.init ≠ []) (cells : List Cell) :
    literals (cells ++ new) = literals cells ++ new := by
  have hkept : new.filter (!·.init.isEmpty) = new := List.filter_eq_self.mpr (by simpa using hnew)
  rw [literals, List.filter_append, hkept, literals]

theorem literals_request (cells : List Cell) (q : Request) :
    literals (request cells q) = literals cells := by
  unfold request
  split
  · exact literals_map_grown q cells
  · simp [literals]

theorem literals_requests (cells : List Cell) (qs : List Request) :
    literals (qs.foldl request cells) = literals cells := by
  induction qs generalizing cells with
  | nil => rfl
  | cons q qs ih => rw [List.foldl_cons, ih, literals_request]

/-- **A cell is found by its name** where it stands, and nothing else is found. -/
theorem Tabulates.findIdx?_eq_some_iff (h : Tabulates asked cells) {k : Nat} :
    cells.findIdx? (·.isAsked n) = some k ↔ ∃ c, cells[k]? = some c ∧ c.name = n ∧ c.init = [] := by
  constructor
  · intro hfound
    obtain ⟨hk, hasked, -⟩ := List.findIdx?_eq_some_iff_getElem.mp hfound
    exact ⟨cells[k], List.getElem?_eq_getElem hk, isAsked_iff.mp hasked⟩
  · rintro ⟨c, hc, rfl, hinit⟩
    obtain ⟨hk, hc⟩ := List.getElem?_eq_some_iff.mp hc
    refine List.findIdx?_eq_some_iff_getElem.mpr
      ⟨hk, by simp [isAsked, hc, hinit], fun j hj hasked => ?_⟩
    obtain ⟨hname, hinit'⟩ := isAsked_iff.mp (by simpa using hasked)
    have hapart :=
      List.pairwise_iff_getElem.mp (List.pairwise_filter.mp (List.pairwise_map.mp h.distinct))
    exact hapart j k (hj.trans hk) hk hj (by simpa using hinit') (by simp [hc, hinit])
      (by rw [hname, hc])

/-- **All cells have names of their own** exactly if the string literals have, other than those
asked for. -/
theorem Tabulates.nodup_names_iff (h : Tabulates asked cells) :
    (cells.map (·.name)).Nodup ↔
      ((literals cells).map (·.name)).Nodup ∧ ∀ c ∈ literals cells,
        c.name ∉ asked.map (·.name) := by
  have hperm : (table cells ++ literals cells).Perm cells := List.filter_append_perm ..
  rw [← (hperm.map _).nodup_iff, List.map_append, List.nodup_append', List.disjoint_comm]
  simp only [h.distinct, true_and]
  refine and_congr_right fun _ => ⟨fun hapart c hc hasked => ?_, fun hapart n hn hn' => ?_⟩
  · exact hapart (List.mem_map_of_mem hc) ((h.names _).mpr hasked)
  · obtain ⟨c, hc, rfl⟩ := List.mem_map.mp hn
    exact hapart c hc ((h.names _).mp hn')

theorem mem_names_request (cells : List Cell) (q : Request) :
    q.name ∈ (request cells q).map (·.name) ∧ ∀ n ∈ cells.map (·.name),
      n ∈ (request cells q).map (·.name) := by
  unfold request
  split
  · rename_i hany
    obtain ⟨c, hc, hasked⟩ := List.any_eq_true.mp hany
    have hnames : (cells.map (grown q)).map (·.name) = cells.map (·.name) := by
      simp [Function.comp_def]
    rw [hnames]
    exact ⟨List.mem_map.mpr ⟨c, hc, (isAsked_iff.mp hasked).1⟩, fun n hn => hn⟩
  · rw [List.map_append]
    exact ⟨List.mem_append_right _ (by simp), fun n hn => List.mem_append_left _ hn⟩

theorem subset_names_requests (cells : List Cell) (qs : List Request) :
    ∀ n ∈ cells.map (·.name), n ∈ (qs.foldl request cells).map (·.name) := by
  induction qs generalizing cells with
  | nil => exact fun n hn => hn
  | cons q qs ih => exact fun n hn => ih _ n ((mem_names_request cells q).2 n hn)

theorem mem_names_requests {qs : List Request} (hq : q ∈ qs) (cells : List Cell) :
    q.name ∈ (qs.foldl request cells).map (·.name) := by
  obtain ⟨before, after, rfl⟩ := List.append_of_mem hq
  rw [List.foldl_append, List.foldl_cons]
  exact subset_names_requests _ after _ (mem_names_request _ q).1

end Assembly.Cell

/-! ### Ledgers that grow -/

namespace Ledger

variable {l l' l'' : Ledger} {m : Arch}

theorem cells_reserve (l : Ledger) (name : String) (size : Int) (segment : Segment) :
    (l.reserve name size segment).cells = Cell.request l.cells ⟨name, size, segment⟩ := by
  unfold Ledger.reserve
  split
  · rename_i h
    exact (if_pos h).symm
  · rename_i h
    exact (if_neg h).symm

@[simp] theorem externals_reserve (l : Ledger) (name : String) (size : Int) (segment : Segment) :
    (l.reserve name size segment).externals = l.externals := by
  unfold Ledger.reserve
  split <;> rfl

@[simp] theorem defined_reserve (l : Ledger) (name : String) (size : Int) (segment : Segment) :
    (l.reserve name size segment).defined = l.defined := by
  unfold Ledger.reserve
  split <;> rfl

/-- The names that a ledger knows. -/
def names (l : Ledger) : Set String :=
  {n | n ∈ l.cells.map (·.name) ∨ n ∈ l.externals ∨ n ∈ l.defined}

/-- The name is one of a scratch cell. -/
def IsScratch (n : String) : Prop := (∃ k : Nat, n = "cate_tmp" ++ toString k) ∨
    ∃ k, n = Build.saveCellName k

/-- The request for a scratch cell. -/
def scratch (m : Arch) (n : String) : Request := ⟨n, 2, m.scratchSegment⟩

/-- **What building code does to a ledger**: scratch cells are asked for, and names are used. -/
structure Grows (m : Arch) (l l' : Ledger) : Prop where
  cells : ∃ asked : List String, (∀ n ∈ asked, IsScratch n) ∧
    l'.cells = (asked.map (scratch m)).foldl Cell.request l.cells
  externals : ∀ n ∈ l.externals, n ∈ l'.externals
  defined : l'.defined = l.defined

theorem Grows.refl (m : Arch) (l : Ledger) : l.Grows m l := ⟨⟨[], by simp, rfl⟩, fun _ h => h, rfl⟩

theorem Grows.of_cells_eq (hcells : l'.cells = l.cells)
    (hexternals : ∀ n ∈ l.externals, n ∈ l'.externals)
    (hdefined : l'.defined = l.defined) : l.Grows m l' :=
  ⟨⟨[], by simp, hcells⟩, hexternals, hdefined⟩

theorem Grows.trans (h : l.Grows m l') (h' : l'.Grows m l'') : l.Grows m l'' := by
  obtain ⟨asked, hasked, hcells⟩ := h.cells
  obtain ⟨asked', hasked', hcells'⟩ := h'.cells
  refine ⟨⟨asked ++ asked', ?_, ?_⟩, fun n hn => h'.externals n (h.externals n hn),
    h'.defined.trans h.defined⟩
  · exact fun n hn => (List.mem_append.mp hn).elim (hasked n) (hasked' n)
  · rw [List.map_append, List.foldl_append, ← hcells, hcells']

theorem Grows.subset (h : l.Grows m l') : l.names ⊆ l'.names := by
  obtain ⟨asked, -, hcells⟩ := h.cells
  rintro n (hn | hn | hn)
  · exact .inl (hcells ▸ Cell.subset_names_requests _ _ n hn)
  · exact .inr (.inl (h.externals n hn))
  · exact .inr (.inr (h.defined ▸ hn))

theorem grows_reserve {n : String} (h : IsScratch n) (l : Ledger) :
    l.Grows m (l.reserve n 2 m.scratchSegment) :=
  ⟨⟨[n], by simpa using h, cells_reserve ..⟩, by simp, by simp⟩

theorem mem_names_reserve (l : Ledger) (n : String) (size : Int) (segment : Segment) :
    n ∈ (l.reserve n size segment).names :=
  .inl (cells_reserve l n size segment ▸ (Cell.mem_names_request _ _).1)

theorem grows_reference (l : Ledger) (n : String) : l.Grows m (l.reference n) := by
  unfold Ledger.reference
  split
  · exact .refl m l
  · exact .of_cells_eq rfl (fun _ hn => List.mem_append_left _ hn) rfl

theorem mem_names_reference (l : Ledger) (n : String) : n ∈ (l.reference n).names := by
  unfold Ledger.reference
  split
  · rename_i h
    rw [Bool.or_eq_true, List.contains_iff_mem, List.contains_iff_mem] at h
    exact .inr h.symm
  · exact .inr (.inl (by simp))

end Ledger

end Octet
