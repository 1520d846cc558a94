import Mathlib.Data.List.DropRight
import Mathlib.Data.List.Sort
import SlotCode.Report.Terminal

/-!
# Marks below a line

The marks of a line are painted one after the other into a row of cells, and a later one goes over an
earlier one.  Primary marks are painted first, so that what is seen at a column is

    `-`  below a secondary mark,
    `^`  below a primary mark and no secondary one,

and a blank elsewhere.  A mark whose columns have room in the row is painted as a whole
(`foldlM_paint?`), and without colours the row is printed cell by cell (`toList_marksText`).
-/

namespace SlotCode.Terminal

open List Option

variable {ms : List Mark} {m : Mark} {column : Nat} {style : LabelStyle}

/-! ## Order -/

theorem insertByColumn_eq (m : Mark) (ms : List Mark) :
    insertByColumn m ms = ms.orderedInsert (fun a b => a.first ≤ b.first) m := by
  induction ms with
  | nil => rfl
  | cons n ms ih => rw [insertByColumn, orderedInsert, ih]

theorem sortByColumn_eq (ms : List Mark) :
    sortByColumn ms = ms.insertionSort (fun a b => a.first ≤ b.first) := by
  induction ms with
  | nil => rfl
  | cons m ms ih =>
    rw [insertionSort_cons, ← ih, ← insertByColumn_eq]
    rfl

theorem sortByColumn_perm (ms : List Mark) : (sortByColumn ms).Perm ms := by
  rw [sortByColumn_eq]
  exact perm_insertionSort _ ms

theorem inOrder_perm (ms : List Mark) : (inOrder ms).Perm ms := by
  have hsecond : ms.filter (fun m => m.style = .secondary) =
      ms.filter (fun m => !decide (m.style = .primary)) := by
    apply filter_congr
    intro m _
    cases m.style <;> rfl
  refine ((sortByColumn_perm _).append (sortByColumn_perm _)).trans ?_
  rw [hsecond]
  exact filter_append_perm _ ms

/-! ## Painting -/

/-- The mark stands below the column. -/
def Mark.Covers (m : Mark) (column : Nat) : Prop :=
  m.first ≤ column ∧ column < m.stop

theorem cellAt_append (ms ms' : List Mark) (column : Nat) :
    cellAt (ms ++ ms') column = (cellAt ms' column).or (cellAt ms column) := by
  rw [cellAt, reverse_append, find?_append, map_or]
  rfl

theorem cellAt_eq_none (h : ∀ m ∈ ms, ¬ m.Covers column) : cellAt ms column = none := by
  rw [cellAt, map_eq_none_iff, find?_eq_none]
  intro m hm
  simpa using fun hfirst hstop => h m (mem_reverse.1 hm) ⟨hfirst, hstop⟩

theorem isSome_cellAt (hm : m ∈ ms) (hcovers : m.Covers column) : (cellAt ms column).isSome := by
  rw [cellAt, isSome_map, find?_isSome]
  exact ⟨m, mem_reverse.2 hm, decide_eq_true hcovers⟩

theorem exists_of_cellAt (h : cellAt ms column = some style) : ∃ m ∈ ms, m.style = style := by
  obtain ⟨m, hfind, hstyle⟩ := map_eq_some_iff.1 h
  exact ⟨m, mem_reverse.1 (mem_of_find?_eq_some hfind), hstyle⟩

/-- Among marks of one style it does not matter which of them is seen. -/
theorem cellAt_of_style (hstyle : ∀ m ∈ ms, m.style = style) (hm : m ∈ ms)
    (hcovers : m.Covers column) : cellAt ms column = some style := by
  obtain ⟨seen, hseen⟩ := isSome_iff_exists.1 (isSome_cellAt hm hcovers)
  obtain ⟨n, hn, rfl⟩ := exists_of_cellAt hseen
  rw [hseen, hstyle n hn]

theorem mem_sortByColumn_filter :
    m ∈ sortByColumn (ms.filter fun m => m.style = style) ↔ m ∈ ms ∧ m.style = style := by
  rw [(sortByColumn_perm _).mem_iff, mem_filter, decide_eq_true_iff]

/-- A secondary mark goes over all primary ones. -/
theorem cellAt_inOrder_secondary (hm : m ∈ ms) (hstyle : m.style = .secondary)
    (hcovers : m.Covers column) : cellAt (inOrder ms) column = some .secondary := by
  have hcell := cellAt_of_style (fun n hn => (mem_sortByColumn_filter.1 hn).2)
    (mem_sortByColumn_filter.2 ⟨hm, hstyle⟩) hcovers
  rw [inOrder, cellAt_append, hcell, some_or]

/-- A primary mark is seen where no secondary one is. -/
theorem cellAt_inOrder_primary (hm : m ∈ ms) (hstyle : m.style = .primary)
    (hcovers : m.Covers column) (hclear : ∀ n ∈ ms, n.style = .secondary → ¬ n.Covers column) :
    cellAt (inOrder ms) column = some .primary := by
  have hcell := cellAt_of_style (fun n hn => (mem_sortByColumn_filter.1 hn).2)
    (mem_sortByColumn_filter.2 ⟨hm, hstyle⟩) hcovers
  have hnone : cellAt (sortByColumn (ms.filter fun m => m.style = .secondary)) column = none := by
    apply cellAt_eq_none
    intro n hn
    have hsecond := mem_sortByColumn_filter.1 hn
    exact hclear n hsecond.1 hsecond.2
  rw [inOrder, cellAt_append, hnone, hcell, none_or]

/-- Paints a mark into a row, of which the first cell stands at column 1.  All its columns must have a
cell in the row. -/
def paint? (row : List (Option LabelStyle)) (m : Mark) : Option (List (Option LabelStyle)) :=
  if m.stop ≤ row.length + 1 then
    some (row.take (m.first - 1)
      ++ List.replicate (m.stop - 1 - (m.first - 1)) (some m.style)
      ++ row.drop (m.stop - 1))
  else
    none

theorem paint?_map {count : Nat} (hroom : m.first < m.stop ∧ m.stop ≤ count + 1)
    (cell : Nat → Option LabelStyle) :
    paint? ((List.range count).map cell) m = some ((List.range count).map fun i =>
      if m.first ≤ i + 1 ∧ i + 1 < m.stop then some m.style else cell i) := by
  rw [paint?, if_pos (by simpa using hroom.2), some.injEq]
  apply ext_getElem
  · simp
    omega
  · intro i hi hi'
    simp only [length_map, length_range] at hi'
    simp only [getElem_append, length_append, length_take, length_map,
      length_range, length_replicate, getElem_take, getElem_replicate,
      getElem_drop, getElem_map, getElem_range]
    by_cases hbefore : i < m.first - 1
    · rw [dif_pos (by omega), dif_pos (by omega), if_neg (by omega)]
    · by_cases hafter : i + 1 < m.stop
      · rw [dif_pos (by omega), dif_neg (by omega), if_pos (by omega)]
      · rw [dif_neg (by omega), if_neg (by omega)]
        congr 1
        omega

/-- Marks that have room are painted one over the other. -/
theorem foldlM_paint? {count : Nat} (hroom : ∀ m ∈ ms, m.first < m.stop ∧ m.stop ≤ count + 1) :
    ms.foldlM paint? (List.replicate count none) =
      some ((List.range count).map fun i => cellAt ms (i + 1)) := by
  induction ms using List.reverseRecOn with
  | nil =>
    rw [foldlM_nil]
    exact congrArg some (by simp [cellAt])
  | append_singleton ms m ih =>
    have hlast : ∀ i, cellAt (ms ++ [m]) (i + 1) =
        if m.first ≤ i + 1 ∧ i + 1 < m.stop then some m.style else cellAt ms (i + 1) := by
      intro i
      rw [cellAt_append]
      by_cases hcovers : m.first ≤ i + 1 ∧ i + 1 < m.stop
      · have hseen : cellAt [m] (i + 1) = some m.style :=
          cellAt_of_style (by simp) (mem_singleton_self m) hcovers
        rw [hseen, if_pos hcovers, some_or]
      · have hblank : cellAt [m] (i + 1) = none := cellAt_eq_none (by simpa [Mark.Covers] using hcovers)
        rw [hblank, if_neg hcovers, none_or]
    simp only [hlast]
    rw [foldlM_append, ih fun n hn => hroom n (mem_append_left _ hn), bind_eq_bind,
      bind_some, foldlM_cons,
      paint?_map (hroom m (mem_append_right _ (mem_singleton_self m))), bind_eq_bind,
      bind_some, foldlM_nil, Option.pure_def]

/-! ## Cells -/

theorem getElem?_rdropWhile {α : Type} {p : α → Bool} {l : List α} {i : Nat} {a : α}
    (h : l[i]? = some a) (ha : p a = false) : (l.rdropWhile p)[i]? = some a := by
  induction l using List.reverseRecOn with
  | nil => cases h
  | append_singleton l b ih =>
    rw [rdropWhile_concat]
    split
    · next hb =>
      apply ih
      rw [getElem?_append] at h
      split at h
      · exact h
      · -- the last one was dropped, and is not the one that is looked for
        have hsame : a = b := by simpa using mem_of_getElem? h
        rw [← hsame, ha] at hb
        cases hb
    · exact h

/-- What is painted is there to be seen. -/
theorem getElem?_cells {line : MarkedLine} (hcolumn : 1 ≤ column) (hroom : column ≤ cellCount line)
    (h : cellAt (inOrder line.marks) column = some style) :
    (cells line)[column - 1]? = some (some style) := by
  refine getElem?_rdropWhile ?_ rfl
  rw [getElem?_map, getElem?_range (by omega), map_some, Nat.sub_add_cancel hcolumn, h]

/-! ## Text -/

theorem runsText_eq (mark : Option LabelStyle) (count : Nat) (row : List (Option LabelStyle)) :
    (runsText false mark count row).toList =
      List.replicate count (markChar mark) ++ row.map markChar := by
  have hrun : ∀ mark count, runText false mark count =
      String.ofList (List.replicate count (markChar mark)) := by
    intro mark count
    cases mark <;> rfl
  induction row generalizing mark count with
  | nil => rw [runsText, hrun, String.toList_ofList, map_nil, append_nil]
  | cons cell row ih =>
    rw [runsText]
    split
    · next hsame =>
      rw [ih, hsame, map_cons, replicate_succ', append_assoc, singleton_append]
    · rw [String.toList_append, hrun, String.toList_ofList, ih, map_cons]
      rfl

/-- Without colours the marks are printed cell by cell. -/
theorem toList_marksText (row : List (Option LabelStyle)) :
    (marksText false row).toList = row.map markChar := by
  cases row with
  | nil => rfl
  | cons cell row => exact runsText_eq cell 1 row

end SlotCode.Terminal
