import SlotCode.Proofs.Report.Marks
import SlotCode.Proofs.Source.Lines

/-!
# Diagnostics with their lines

The lines on which labels begin are printed once each and in order, with the marks and the remarks of
their labels below them (`render_shows_labels`).  Where a label begins and how far it is marked follows
from the line map; no mark ends more than two bytes behind its line, and the row of cells below a line
is ten longer than the line.

A primary label is seen only where no secondary label of its line is (`primary_underlined`).  A label
whose column is too large for a word may be lost altogether (`render_longLine`).
-/

namespace SlotCode

open List

variable {text : String} {o : Nat} {label : Label}

theorem byteLength_toList (text : String) : byteLength text.toList = text.utf8ByteSize := by
  have hchars : ∀ cs : List Char, (cs.flatMap String.utf8EncodeChar).length = byteLength cs := by
    intro cs
    induction cs with
    | nil => rfl
    | cons c cs ih =>
      rw [flatMap_cons, length_append, String.length_utf8EncodeChar, ih, byteLength_cons]
  rw [← hchars, ← bytesOf_eq, length_bytesOf]

/-- Words can tell where the offset is, or the end of the text if that comes first. -/
def LineMap.Tells (text : String) (o : Nat) : Prop :=
  ¬ LineMap.Overflows text (min o text.utf8ByteSize)

open LineMap (Tells pieces repeated)

namespace Label

/-- Where a label begins, or the end of the text if that comes first. -/
def first (text : String) (label : Label) : Position :=
  placeOf text (min label.span.start text.utf8ByteSize)

/-- Where a label stops, or the end of the text if that comes first. -/
def last (text : String) (label : Label) : Position :=
  placeOf text (min label.span.stop text.utf8ByteSize)

/-- The line on which a label begins. -/
def line (text : String) (label : Label) : Nat :=
  (label.first text).line

/-- The label is to be marked below the column of its line: from the column where it begins up to the
one where it stops or, if it runs on, up to the end of the line, and below one column at least. -/
def Covers (text : String) (label : Label) (column : Nat) : Prop :=
  (label.first text).column ≤ column ∧
    (column = (label.first text).column ∨
      column < if (label.last text).line = label.line text then (label.last text).column
        else byteLength ((SourceText.ofText text).line (label.line text)).toList + 1)

end Label

section

variable (small : text.utf8ByteSize < Nat.pow 2 32)

include small

namespace SourceText

/-! ## Columns -/

theorem position_ofText (o : Nat) :
    (ofText text).position o = ⟨toWord (placeOf text (min o text.utf8ByteSize)).line,
      toWord (placeOf text (min o text.utf8ByteSize)).column⟩ := by
  have hsize : (ofText text).size = text.utf8ByteSize := byteLength_toList text
  rw [position, clamp, hsize]
  exact LineMap.position_ofText small (Nat.min_le_right ..)

theorem position_of_told (h : Tells text o) :
    (ofText text).position o = placeOf text (min o text.utf8ByteSize) := by
  have hsize : (ofText text).size = text.utf8ByteSize := byteLength_toList text
  rw [position, clamp, hsize]
  exact LineMap.position_of_not_overflows small (Nat.min_le_right ..) h

/-- An offset lies on its line: not behind the end of the piece that the line is. -/
theorem exists_piece_of_offset (inside : o ≤ text.utf8ByteSize) :
    ∃ piece, (pieces text.toList)[(placeOf text o).line - 1]? = some piece ∧
      (placeOf text o).column ≤ byteLength piece + 1 := by
  obtain ⟨start, hstart, hreach⟩ := LineMap.start_ofText small inside
  rw [LineMap.starts_eq_startsFrom small] at hstart
  have hbound : (placeOf text o).line - 1 < (pieces text.toList).length := by
    rw [LineMap.length_pieces 0]
    exact (List.getElem?_eq_some_iff.1 hstart).1
  refine ⟨_, getElem?_eq_getElem hbound, ?_⟩
  obtain ⟨front, back, hwhole, hfront, hnext⟩ :=
    LineMap.exists_piece_between 0 (getElem?_eq_getElem hbound)
  have hsame : start = 0 + byteLength front := Option.some.inj (hstart.symm.trans hfront)
  rcases hnext with ⟨rfl, -⟩ | hnext
  · have hsize := byteLength_toList text
    rw [hwhole, byteLength_append, append_nil] at hsize
    omega
  · -- the next line starts behind the offset
    have happart : byteStarts 0 (bytesOf text) =
        byteStarts 0 ((bytesOf text).take o) ++ byteStarts o ((bytesOf text).drop o) := by
      conv => lhs; rw [← take_append_drop o (bytesOf text), byteStarts_append,
        length_take_bytesOf inside, Nat.zero_add]
    rw [LineMap.startsFrom_eq, ← bytesOf_eq, getElem?_cons_succ, happart,
      getElem?_append_right (by rw [length_byteStarts]; rfl)] at hnext
    have hbehind := (mem_byteStarts_bounds (mem_of_getElem? hnext)).1
    omega

/-- The line of an offset is one of the text's lines, and the column is at most one behind its end. -/
theorem line_of_place (inside : o ≤ text.utf8ByteSize) :
    (LineMap.ofText text).lineText? text (placeOf text o).line =
        some ((ofText text).line (placeOf text o).line) ∧
      (placeOf text o).column ≤ byteLength ((ofText text).line (placeOf text o).line).toList + 1 := by
  obtain ⟨piece, hpiece, hlength⟩ := exists_piece_of_offset small inside
  have hline := LineMap.lineText?_ofText small hpiece
  have htext : (ofText text).line (placeOf text o).line = String.ofList piece :=
    congrArg (Option.getD · "") hline
  rw [htext, String.toList_ofList]
  exact ⟨hline, hlength⟩

end SourceText

namespace Terminal

theorem line_position (h : Tells text label.span.start) :
    ((SourceText.ofText text).position label.span.start).line = label.line text := by
  rw [SourceText.position_of_told small h]
  rfl

/-- The mark of a label goes from where it begins to where it stops. -/
theorem markOf_eq (h : Tells text label.span.start) :
    markOf (.ofText text) label =
      { first := (label.first text).column
        stop := max
          (if ((SourceText.ofText text).position label.span.stop).line = label.line text then
            ((SourceText.ofText text).position label.span.stop).column
          else byteLength ((SourceText.ofText text).line (label.line text)).toList + 1)
          ((label.first text).column + 1)
        style := label.style
        message := label.message } := by
  rw [markOf, SourceText.position_of_told small h]
  rfl

theorem covers_markOf {column : Nat} (h : Tells text label.span.start)
    (h' : Tells text label.span.stop) :
    (markOf (.ofText text) label).Covers column ↔ label.Covers text column := by
  rw [markOf_eq small h, SourceText.position_of_told small h', Mark.Covers, Label.Covers]
  change (label.first text).column ≤ column ∧ column < max
    (if (label.last text).line = _ then (label.last text).column else _) _ ↔ _
  omega

/-- The mark of a label ends at most two bytes behind its line. -/
theorem markOf_stop_le (h : Tells text label.span.start) :
    (markOf (.ofText text) label).stop ≤
      byteLength ((SourceText.ofText text).line (label.line text)).toList + 2 := by
  have hstart : (label.first text).column ≤
      byteLength ((SourceText.ofText text).line (label.line text)).toList + 1 :=
    (SourceText.line_of_place small (Nat.min_le_right ..)).2
  have hstop : (label.last text).column ≤
      byteLength ((SourceText.ofText text).line (label.last text).line).toList + 1 :=
    (SourceText.line_of_place small (Nat.min_le_right ..)).2
  rw [markOf_eq small h, SourceText.position_ofText small]
  change max (if toWord (label.last text).line = _ then toWord (label.last text).column else _) _ ≤ _
  split
  · next hsame =>
    -- The number of a line is 0 only where it has been cut.
    have hline : (label.last text).line = label.line text := by
      have hmost : (label.last text).line ≤ _ := (placeOf_le (Nat.min_le_right ..)).1
      rw [← hsame, toWord_of_lt]
      by_contra hlarge
      have hcut : (label.last text).line = Nat.pow 2 32 := by omega
      rw [hcut] at hsame
      exact absurd hsame (Nat.succ_ne_zero _).symm
    have hcolumn := toWord_le (label.last text).column
    rw [hline] at hstop
    omega
  · omega

end Terminal

end

namespace Terminal

variable {source : SourceText} {line : Label → Nat} {labels : List Label} {lines : List MarkedLine}
  {l : MarkedLine} {column number gutter n : Nat} {content : String} {m : Mark}

theorem markOf_first_lt_stop (source : SourceText) (label : Label) :
    (markOf source label).first < (markOf source label).stop := by
  simp only [markOf]
  omega

/-! ## Grouping -/

/-- The lines are those on which the labels begin, in increasing order, and each has the marks of its
labels. -/
structure Groups (source : SourceText) (line : Label → Nat) (labels : List Label)
    (lines : List MarkedLine) : Prop where
  increasing : (lines.map MarkedLine.number).Pairwise (· < ·)
  numbers : ∀ n, n ∈ lines.map MarkedLine.number ↔ ∃ label ∈ labels, line label = n
  text : ∀ l ∈ lines, l.text = source.line l.number
  marks : ∀ l ∈ lines, l.marks = (labels.filter (line · = l.number)).map (markOf source)

theorem mem_numbers_addMark {n : Nat} :
    n ∈ (addMark number content m lines).map MarkedLine.number ↔
      n = number ∨ n ∈ lines.map MarkedLine.number := by
  induction lines with
  | nil => simp [addMark]
  | cons l lines ih =>
    rw [addMark]
    split
    · simp
    · split
      · next hsame => simp [hsame]
      · rw [map_cons, mem_cons, ih, map_cons, mem_cons]
        exact or_left_comm

theorem increasing_addMark (number : Nat) (content : String) (m : Mark)
    (h : (lines.map MarkedLine.number).Pairwise (· < ·)) :
    ((addMark number content m lines).map MarkedLine.number).Pairwise (· < ·) := by
  induction lines with
  | nil => exact pairwise_singleton _ _
  | cons l lines ih =>
    obtain ⟨hfirst, hrest⟩ := pairwise_cons.1 h
    rw [addMark]
    split
    · next hlt =>
      refine pairwise_cons.2 ⟨?_, h⟩
      exact forall_mem_cons.2 ⟨hlt, fun n hn => hlt.trans (hfirst n hn)⟩
    · next hle =>
      split
      · exact h
      · next hne =>
        refine pairwise_cons.2 ⟨fun n hn => ?_, ih hrest⟩
        rcases mem_numbers_addMark.1 hn with rfl | hn
        · omega
        · exact hfirst n hn

/-- What a line is after a mark has been added: as before, new, or with one mark more. -/
theorem addMark_cases {l : MarkedLine} (h : (lines.map MarkedLine.number).Pairwise (· < ·))
    (hl : l ∈ addMark number content m lines) :
    (l ∈ lines ∧ l.number ≠ number) ∨
      (l = ⟨number, content, [m]⟩ ∧ number ∉ lines.map MarkedLine.number) ∨
      ∃ old ∈ lines, old.number = number ∧ l = { old with marks := old.marks ++ [m] } := by
  induction lines with
  | nil => exact .inr (.inl ⟨mem_singleton.1 hl, not_mem_nil⟩)
  | cons first lines ih =>
    obtain ⟨hfirst, hrest⟩ := pairwise_cons.1 h
    rw [addMark] at hl
    split at hl
    · next hlt =>
      have hlater : ∀ n ∈ (first :: lines).map MarkedLine.number, number < n :=
        forall_mem_cons.2 ⟨hlt, fun n hn => hlt.trans (hfirst n hn)⟩
      rcases mem_cons.1 hl with rfl | hl
      · exact .inr (.inl ⟨rfl, fun hn => Nat.lt_irrefl _ (hlater _ hn)⟩)
      · exact .inl ⟨hl, (hlater _ (mem_map_of_mem hl)).ne'⟩
    · split at hl
      · next hsame =>
        rcases mem_cons.1 hl with rfl | hl
        · exact .inr (.inr ⟨first, mem_cons_self, hsame.symm, rfl⟩)
        · refine .inl ⟨mem_cons_of_mem _ hl, ?_⟩
          rw [hsame]
          exact (hfirst _ (mem_map_of_mem hl)).ne'
      · next hne =>
        rcases mem_cons.1 hl with rfl | hl
        · exact .inl ⟨mem_cons_self, Ne.symm hne⟩
        · rcases ih hrest hl with ⟨hold, hother⟩ | ⟨hnew, hnone⟩ | ⟨old, hold, hmore⟩
          · exact .inl ⟨mem_cons_of_mem _ hold, hother⟩
          · refine .inr (.inl ⟨hnew, ?_⟩)
            rw [map_cons, mem_cons, not_or]
            exact ⟨hne, hnone⟩
          · exact .inr (.inr ⟨old, mem_cons_of_mem _ hold, hmore⟩)

theorem Groups.addMark (h : Groups source line labels lines) (label : Label) :
    Groups source line (labels ++ [label])
      (addMark (line label) (source.line (line label)) (markOf source label) lines) where
  increasing := increasing_addMark _ _ _ h.increasing
  numbers n := by
    rw [mem_numbers_addMark, h.numbers]
    simp only [mem_append, mem_singleton, or_and_right, exists_or, exists_eq_left]
    rw [or_comm, eq_comm]
  text l hl := by
    rcases addMark_cases h.increasing hl with ⟨hold, -⟩ | ⟨rfl, -⟩ | ⟨old, hold, hnumber, rfl⟩
    · exact h.text l hold
    · rfl
    · exact h.text old hold
  marks l hl := by
    rw [filter_append, map_append]
    rcases addMark_cases h.increasing hl with ⟨hold, hother⟩ | ⟨rfl, hnew⟩ | ⟨old, hold, hnumber, rfl⟩
    · have hnone : [label].filter (line · = l.number) = [] := by simpa using Ne.symm hother
      rw [h.marks l hold, hnone, map_nil, append_nil]
    · have hnone : labels.filter (line · = line label) = [] := by
        rw [filter_eq_nil_iff]
        intro other hother hsame
        exact hnew ((h.numbers _).2 ⟨other, hother, of_decide_eq_true hsame⟩)
      simp [hnone]
    · simp [h.marks old hold, hnumber]

theorem groups_markedLines (small : text.utf8ByteSize < Nat.pow 2 32)
    (told : ∀ label ∈ labels, Tells text label.span.start) :
    Groups (.ofText text) (Label.line text) labels (markedLines (.ofText text) labels) := by
  induction labels using List.reverseRecOn with
  | nil => exact ⟨.nil, by simp [markedLines], forall_mem_nil _, forall_mem_nil _⟩
  | append_singleton labels label ih =>
    obtain ⟨htold, hlabel⟩ := forall_mem_append.1 told
    have hstep := (ih htold).addMark label
    rw [← line_position small (hlabel label (mem_singleton_self label))] at hstep
    rw [markedLines, foldl_append]
    exact hstep

section

variable (small : text.utf8ByteSize < Nat.pow 2 32)
  (h : Groups (.ofText text) (Label.line text) labels lines)
  (told : ∀ label ∈ labels, Tells text label.span.start) (hl : l ∈ lines)

include small h told hl

/-- The marks of a line have room in its row. -/
theorem Groups.room : ∀ m ∈ inOrder l.marks, m.first < m.stop ∧ m.stop ≤ cellCount l + 1 := by
  intro m hm
  rw [(inOrder_perm _).mem_iff, h.marks l hl, mem_map] at hm
  obtain ⟨label, hlabel, rfl⟩ := hm
  obtain ⟨hlabel, hline⟩ := mem_filter.1 hlabel
  have hstop := markOf_stop_le small (told label hlabel)
  rw [of_decide_eq_true hline, ← h.text l hl] at hstop
  refine ⟨markOf_first_lt_stop _ _, ?_⟩
  rw [cellCount]
  omega

omit told in
theorem Groups.lineText : (LineMap.ofText text).lineText? text l.number = some l.text := by
  obtain ⟨label, -, hline⟩ := (h.numbers l.number).1 (mem_map_of_mem hl)
  rw [h.text l hl, ← hline]
  exact (SourceText.line_of_place small (Nat.min_le_right ..)).1

/-- What is painted below a line is there to be seen. -/
theorem Groups.seen (hm : m ∈ l.marks) (hcovers : m.Covers column) (hcolumn : 1 ≤ column)
    {style : LabelStyle} (hcell : cellAt (inOrder l.marks) column = some style) :
    (marksText false (cells l)).toList[column - 1]? = some (markChar (some style)) := by
  have hroom := (h.room small told hl m ((inOrder_perm _).mem_iff.2 hm)).2
  have hlast := hcovers.2
  rw [toList_marksText, getElem?_map, getElem?_cells hcolumn (by omega) hcell, Option.map_some]

/-- A line is shown because a label begins on it, and that label leaves a mark. -/
theorem Groups.marked : ∃ c ∈ (marksText false (cells l)).toList, c = '^' ∨ c = '-' := by
  obtain ⟨label, hlabel, hline⟩ := (h.numbers l.number).1 (mem_map_of_mem hl)
  have hmem : markOf (.ofText text) label ∈ l.marks := by
    rw [h.marks l hl]
    exact mem_map_of_mem (mem_filter.2 ⟨hlabel, decide_eq_true hline⟩)
  have hcovers : (markOf (.ofText text) label).Covers (markOf (.ofText text) label).first :=
    ⟨Nat.le_refl _, markOf_first_lt_stop _ _⟩
  have hfirst : 1 ≤ (markOf (.ofText text) label).first := by
    rw [markOf_eq small (told label hlabel)]
    exact Nat.le_add_left 1 _
  obtain ⟨style, hcell⟩ := Option.isSome_iff_exists.1
    (isSome_cellAt ((inOrder_perm _).mem_iff.2 hmem) hcovers)
  refine ⟨_, mem_of_getElem? (h.seen small told hl hmem hcovers hfirst hcell), ?_⟩
  cases style
  · exact .inl rfl
  · exact .inr rfl

end

/-! ## Printed lines -/

/-- What is printed of a line: the line, after a sign if others were left out, the marks below it, with a
message beside them if there is only one, and else the messages on rows of their own, each with its
indent. -/
structure Block where
  gap : Bool
  number : Nat
  text : String
  marks : String
  beside : Option String
  below : List (Nat × String)

/-- The rows of a block, without colours. -/
def Block.print (gutter : Nat) (b : Block) : String :=
  (if b.gap then spaces gutter ++ " ...\n" else "")
    ++ (spaces (gutter + 1 - (toString b.number).length) ++ toString b.number ++ " | " ++ b.text ++ "\n")
    ++ (spaces (gutter + 1) ++ " | " ++ b.marks ++ (b.beside.map (" " ++ ·)).getD "" ++ "\n")
    ++ String.join (b.below.map fun r =>
      spaces (gutter + 1) ++ " | " ++ spaces r.1 ++ "| " ++ r.2 ++ "\n")

/-- What is printed of the line. -/
structure Block.IsOf (l : MarkedLine) (b : Block) : Prop where
  number : b.number = l.number
  text : b.text = l.text
  marks : b.marks = marksText false (cells l)
  messages : (b.beside.toList ++ b.below.map Prod.snd).Perm ((remarks l).map Remark.message)

section

open Text.Style

theorem text_gap : Row.text false gutter .gap = spaces gutter ++ " ...\n" := by
  simp [Row.text, paint, ← String.toList_inj]

theorem text_source (number : Nat) (content : String) :
    Row.text false gutter (.source number content) =
      spaces (gutter + 1 - (toString number).length) ++ toString number ++ " | " ++ content ++ "\n" := by
  simp [Row.text, Row.text.bar, paint, ← String.toList_inj]

theorem text_marks (row : List (Option LabelStyle)) (beside : Option Remark) :
    Row.text false gutter (.marks row beside) = spaces (gutter + 1) ++ " | " ++ marksText false row ++
      ((beside.map Remark.message).map (" " ++ ·)).getD "" ++ "\n" := by
  cases beside <;> simp [Row.text, Row.text.margin, Row.text.bar, paint, ← String.toList_inj]

theorem text_remark (r : Remark) :
    Row.text false gutter (.remark r) =
      spaces (gutter + 1) ++ " | " ++ spaces r.indent ++ "| " ++ r.message ++ "\n" := by
  simp [Row.text, Row.text.margin, Row.text.bar, paint, ← String.toList_inj]

end

theorem markRows_cases (h : cells l ≠ []) :
    ∃ beside below, markRows l = .marks (cells l) beside :: below.map .remark ∧
      (beside.toList ++ below).Perm (remarks l) := by
  rw [markRows]
  split
  · next hcells => exact absurd hcells h
  · next remark hremarks _ => exact ⟨some remark, [], rfl, by rw [hremarks]; exact .refl _⟩
  · exact ⟨none, (remarks l).reverse, rfl, (remarks l).reverse_perm⟩

theorem exists_block (gap : Bool) (h : cells l ≠ []) :
    ∃ b : Block, b.IsOf l ∧ String.join (((if gap then [Row.gap] else []) ++
      .source l.number l.text :: markRows l).map (Row.text false gutter)) = b.print gutter := by
  obtain ⟨beside, below, hrows, hremarks⟩ := markRows_cases h
  refine ⟨⟨gap, l.number, l.text, marksText false (cells l), beside.map Remark.message,
    below.map fun r => (r.indent, r.message)⟩, ⟨rfl, rfl, rfl, ?_⟩, ?_⟩
  · have hmessages := hremarks.map Remark.message
    rw [map_append, ← Option.toList_map] at hmessages
    rw [map_map]
    exact hmessages
  · have hgap : String.join ((if gap then [Row.gap] else []).map (Row.text false gutter)) =
        if gap then spaces gutter ++ " ...\n" else "" := by
      cases gap
      · rfl
      · exact text_gap
    have hbelow : (below.map Row.remark).map (Row.text false gutter) =
        (below.map fun r => (r.indent, r.message)).map fun r =>
          spaces (gutter + 1) ++ " | " ++ spaces r.1 ++ "| " ++ r.2 ++ "\n" := by
      rw [map_map, map_map]
      exact map_congr_left fun r _ => text_remark r
    rw [hrows, map_append, String.join_append, hgap, map_cons, String.join_cons, text_source, map_cons,
      String.join_cons, text_marks, hbelow, Block.print]
    simp only [String.append_assoc]

/-- The lines are printed block by block. -/
theorem exists_blocks (previous : Option Nat) (h : ∀ l ∈ lines, cells l ≠ []) :
    ∃ blocks : List Block, blocks.map Block.number = lines.map MarkedLine.number ∧
      (∀ b ∈ blocks, ∃ l ∈ lines, b.IsOf l) ∧
      String.join ((lineRows previous lines).map (Row.text false gutter)) =
        String.join (blocks.map (Block.print gutter)) := by
  induction lines generalizing previous with
  | nil => exact ⟨[], rfl, forall_mem_nil _, rfl⟩
  | cons l lines ih =>
    obtain ⟨hl, hlines⟩ := forall_mem_cons.1 h
    obtain ⟨blocks, hnumbers, hblocks, hprint⟩ := ih (some l.number) hlines
    have hgap : ∃ gap : Bool, lineRows previous (l :: lines) = ((if gap then [Row.gap] else []) ++
        .source l.number l.text :: markRows l) ++ lineRows (some l.number) lines := by
      cases previous with
      | none => exact ⟨false, rfl⟩
      | some number => exact ⟨decide (number + 1 < l.number), by simp [lineRows]⟩
    obtain ⟨gap, hgap⟩ := hgap
    obtain ⟨b, hb, hfirst⟩ := exists_block gap hl
    refine ⟨b :: blocks, ?_, forall_mem_cons.2 ⟨⟨l, mem_cons_self, hb⟩, fun b' hb' => ?_⟩, ?_⟩
    · rw [map_cons, map_cons, hb.number, hnumbers]
    · obtain ⟨l', hl', hof⟩ := hblocks b' hb'
      exact ⟨l', mem_cons_of_mem l hl', hof⟩
    · rw [hgap, map_append, String.join_append, hfirst, hprint, map_cons, String.join_cons]

/-- The messages printed below a line are those of its labels. -/
theorem messages_perm (h : l.marks = labels.map (markOf source)) :
    ((remarks l).map Remark.message).Perm (labels.filterMap Label.message) := by
  have hmarks : (remarks l).map Remark.message = (inOrder l.marks).filterMap Mark.message := by
    rw [remarks, map_filterMap]
    congr 1
    funext m
    rw [Option.map_map]
    exact Option.map_id'
  have hlabels : (labels.map (markOf source)).filterMap Mark.message =
      labels.filterMap Label.message := filterMap_map
  rw [hmarks, ← hlabels, ← h]
  exact (inOrder_perm l.marks).filterMap _

/-- A diagnostic with labels has a place. -/
theorem rows_of_labels (source : SourceText) (file : String) {d : Diagnostic} (h : d.labels ≠ []) :
    ∃ place, rows source file d =
      [.header d.severity d.code d.message, .place file place, .edge] ++
        (lineRows none (markedLines source d.labels) ++ footerRows d) := by
  obtain ⟨span, hspan⟩ : ∃ span, d.mainSpan? = some span := by
    obtain ⟨first, rest, hlabels⟩ := exists_cons_of_ne_nil h
    rw [← Option.isSome_iff_exists, Diagnostic.mainSpan?, Diagnostic.mainLabel?, hlabels]
    simp
  exact ⟨source.position span.start, by rw [rows, hspan]; rfl⟩

/-- Without colours the diagnostic is printed as the blocks, in the order of their lines, behind the
message and the place and before the advice. -/
def Displays (file : Option String) (text : String) (d : Diagnostic) (blocks : List Block) : Prop :=
  (blocks.map Block.number).Pairwise (· < ·) ∧ ∃ place gutter,
    render false file (.ofText text) d =
      String.join ([.header d.severity d.code d.message, .place (file.getD "<source>") place,
        .edge].map (Row.text false gutter)) ++
      String.join (blocks.map (Block.print gutter)) ++
      String.join ((footerRows d).map (Row.text false gutter))

/-- The diagnostic is printed as the blocks of the lines on which its labels begin. -/
theorem exists_displays (small : text.utf8ByteSize < Nat.pow 2 32) (file : Option String)
    {d : Diagnostic} (labelled : d.labels ≠ []) (told : ∀ label ∈ d.labels, Tells text label.span.start) :
    ∃ blocks, Displays file text d blocks ∧
      (∀ n, n ∈ blocks.map Block.number ↔ ∃ label ∈ d.labels, label.line text = n) ∧
      ∀ b ∈ blocks, ∃ l ∈ markedLines (.ofText text) d.labels, b.IsOf l := by
  have hgroups := groups_markedLines small told
  obtain ⟨place, hplace⟩ := rows_of_labels (.ofText text) (file.getD "<source>") labelled
  obtain ⟨blocks, hnumbers, hblocks, hprint⟩ := exists_blocks none fun l hl hnil => by
    obtain ⟨c, hc, -⟩ := hgroups.marked small told hl
    rw [hnil] at hc
    cases hc
  refine ⟨blocks, ⟨?_, place, gutterWidth (markedLines (.ofText text) d.labels), ?_⟩, ?_, hblocks⟩
  · rw [hnumbers]
    exact hgroups.increasing
  · rw [render, hplace, map_append, map_append, String.join_append, String.join_append, hprint,
      String.append_assoc]
  · rw [hnumbers]
    exact hgroups.numbers

/-! ## Labels -/

/-- What a block shows of the labels that begin on its line, which is a line of the text.  Painting
their marks never leaves the row of cells, and the row is printed up to its last mark; there is one at
least.  The messages stand beside or below it, once each. -/
structure Block.Shows (text : String) (labels : List Label) (b : Block) : Prop where
  line : (LineMap.ofText text).lineText? text b.number = some b.text
  painted : ∃ row, (inOrder (labels.map (markOf (.ofText text)))).foldlM paint?
      (List.replicate (byteLength b.text.toList + 10) none) = some row ∧
    b.marks.toList = (row.rdropWhile Option.isNone).map markChar
  marked : ∃ c ∈ b.marks.toList, c = '^' ∨ c = '-'
  messages : (b.beside.toList ++ b.below.map Prod.snd).Perm (labels.filterMap Label.message)

theorem Groups.shows (small : text.utf8ByteSize < Nat.pow 2 32)
    (h : Groups (.ofText text) (Label.line text) labels lines)
    (told : ∀ label ∈ labels, Tells text label.span.start) (hl : l ∈ lines) {b : Block}
    (hb : b.IsOf l) : b.Shows text (labels.filter (Label.line text · = b.number)) := by
  have hmarks := h.marks l hl
  rw [← hb.number] at hmarks
  refine ⟨?_, ⟨(List.range (cellCount l)).map fun i => cellAt (inOrder l.marks) (i + 1), ?_, ?_⟩, ?_, ?_⟩
  · rw [hb.number, hb.text]
    exact h.lineText small hl
  · rw [← hmarks, hb.text]
    exact foldlM_paint? (h.room small told hl)
  · rw [hb.marks, toList_marksText]
    rfl
  · rw [hb.marks]
    exact h.marked small told hl
  · exact hb.messages.trans (messages_perm hmarks)

/-- Words can tell every offset of a text that is not of the greatest size. -/
theorem told_of_lt (h : text.utf8ByteSize + 1 < Nat.pow 2 32) (o : Nat) : Tells text o :=
  LineMap.not_overflows_of_lt (Nat.lt_succ_of_le (Nat.min_le_right o _)) h

/-- Labels on two lines, of which one runs on and one is empty and behind the end of the text. -/
def spreadLabels : Diagnostic :=
  { Diagnostic.ofCode "E0308" "mismatched types" with
    labels := [⟨⟨9, 9⟩, .secondary, some "here"⟩, ⟨⟨1, 5⟩, .primary, some "there"⟩] }

example : render false none (.ofText "abc\nde") spreadLabels =
    "error[E0308]: mismatched types\n  --> <source>:1:2\n    |\n" ++
      "  1 | abc\n    |  ^^ there\n  2 | de\n    |   - here\n" := by
  decide +kernel

/-- A label at an offset, with a message. -/
def labelAt (o : Nat) : Diagnostic :=
  { Diagnostic.ofCode "E0308" "mismatched types" with labels := [⟨⟨o, o⟩, .primary, some "here"⟩] }

theorem line_repeated (small : (repeated n 'a').utf8ByteSize < Nat.pow 2 32) :
    (SourceText.ofText (repeated n 'a')).line 1 = repeated n 'a' := by
  have hpieces : pieces (repeated n 'a').toList = [List.replicate n 'a'] := by
    rw [repeated, String.toList_ofList]
    clear small
    induction n with
    | zero => rfl
    | succ n ih =>
      rw [replicate_succ, LineMap.pieces_cons, ih]
      rfl
  have hfirst : (pieces (repeated n 'a').toList)[0]? = some (List.replicate n 'a') := by
    rw [hpieces]
    rfl
  exact congrArg (Option.getD · "") (LineMap.lineText?_ofText small hfirst)

/-- Marks that stop before the first cell leave nothing to be seen. -/
theorem cells_eq_nil (h : ∀ m ∈ l.marks, m.stop ≤ 1) : cells l = [] := by
  rw [cells, reverse_eq_nil_iff, dropWhile_eq_nil_iff]
  intro cell hcell
  obtain ⟨i, -, rfl⟩ := mem_map.1 (mem_reverse.1 hcell)
  rw [Option.isNone_iff_eq_none]
  refine cellAt_eq_none fun m hm hcovers => ?_
  have hstop := h m ((inOrder_perm _).mem_iff.1 hm)
  have hcover := hcovers.2
  omega

/-- The end of a line that is too long is taken for its column 0. -/
theorem markedLines_longLine (full : n + 1 = Nat.pow 2 32) :
    (SourceText.ofText (repeated n 'a')).position n = ⟨1, 0⟩ ∧
      markedLines (.ofText (repeated n 'a')) (labelAt n).labels =
        [⟨1, repeated n 'a', [⟨0, 1, .primary, some "here"⟩]⟩] := by
  obtain ⟨small, hposition⟩ := LineMap.position_longLine full
  have hplace : (SourceText.ofText (repeated n 'a')).position n = ⟨1, 0⟩ := by
    have hsize : (SourceText.ofText (repeated n 'a')).size = n :=
      (byteLength_toList _).trans (LineMap.utf8ByteSize_repeated (b := 97) rfl n)
    rw [SourceText.position, SourceText.clamp, hsize, Nat.min_self]
    exact hposition
  have hmark : markOf (.ofText (repeated n 'a')) ⟨⟨n, n⟩, .primary, some "here"⟩ =
      ⟨0, 1, .primary, some "here"⟩ := by
    rw [markOf, hplace]
    rfl
  refine ⟨hplace, ?_⟩
  rw [markedLines, labelAt, foldl_cons, foldl_nil, hplace, hmark]
  exact congrArg (fun content => [MarkedLine.mk 1 content _]) (line_repeated small)

/-- Column 0 has no cell, so that neither a mark nor the message is printed. -/
theorem render_longLine (full : n + 1 = Nat.pow 2 32) :
    render false none (.ofText (repeated n 'a')) (labelAt n) =
      "error[E0308]: mismatched types\n  --> <source>:1:0\n    |\n  1 | " ++
        repeated n 'a' ++ "\n" := by
  obtain ⟨hplace, hlines⟩ := markedLines_longLine full
  have hcells : cells ⟨1, repeated n 'a', [⟨0, 1, .primary, some "here"⟩]⟩ = [] :=
    cells_eq_nil (forall_mem_singleton.2 (Nat.le_refl 1))
  have hrows : rows (.ofText (repeated n 'a')) "<source>" (labelAt n) =
      [.header .error (some "E0308") "mismatched types", .place "<source>" ⟨1, 0⟩, .edge] ++
        [.source 1 (repeated n 'a')] := by
    have hspan : (labelAt n).mainSpan? = some ⟨n, n⟩ := rfl
    rw [rows, hspan, hlines, lineRows, markRows, hcells]
    simp only [hplace]
    rfl
  have hedges : String.join ([.header .error (some "E0308") "mismatched types",
      .place "<source>" ⟨1, 0⟩, .edge].map (Row.text false 2)) =
      "error[E0308]: mismatched types\n  --> <source>:1:0\n    |\n" := by decide +kernel
  have hnumber : spaces (2 + 1 - (toString 1).length) ++ toString 1 ++ " | " = "  1 | " := by
    decide +kernel
  have hgutter : gutterWidth [⟨1, repeated n 'a', [⟨0, 1, .primary, some "here"⟩]⟩] = 2 :=
    congrArg (max · 2) (by decide +kernel : (toString 1).length = 1)
  rw [render, Option.getD_none, hrows, hlines, hgutter, map_append, String.join_append, hedges,
    map_singleton, text_source, hnumber]
  simp [← String.toList_inj]

/-- One block is that of a primary label's line.  In its row of marks `^` stands at the columns of the
label at which no secondary label of the line is marked, and `-` at the others. -/
theorem primary_underlined (text : String) (small : text.utf8ByteSize < Nat.pow 2 32)
    (file : Option String) (d : Diagnostic)
    (told : ∀ label ∈ d.labels, Tells text label.span.start ∧ Tells text label.span.stop)
    (label : Label) (present : label ∈ d.labels) (primary : label.style = .primary) :
    ∃ blocks, Displays file text d blocks ∧ ∃ b ∈ blocks, b.number = label.line text ∧
      b.Shows text (d.labels.filter (Label.line text · = b.number)) ∧
      ∀ column, label.Covers text column →
        ((∀ other ∈ d.labels, other.style = .secondary → other.line text = label.line text →
            ¬ other.Covers text column) → b.marks.toList[column - 1]? = some '^') ∧
        ((∃ other ∈ d.labels, other.style = .secondary ∧ other.line text = label.line text ∧
            other.Covers text column) → b.marks.toList[column - 1]? = some '-') := by
  have htold : ∀ label ∈ d.labels, Tells text label.span.start :=
    fun label hlabel => (told label hlabel).1
  have hcovers : ∀ other ∈ d.labels, ∀ column,
      (markOf (.ofText text) other).Covers column ↔ other.Covers text column := fun other hother _ =>
    covers_markOf small (told other hother).1 (told other hother).2
  obtain ⟨blocks, hdisplays, hnumbers, hblocks⟩ :=
    exists_displays small file (ne_nil_of_mem present) htold
  have hgroups := groups_markedLines small htold
  obtain ⟨b, hb, hnumber⟩ := mem_map.1 ((hnumbers (label.line text)).2 ⟨label, present, rfl⟩)
  obtain ⟨l, hl, hof⟩ := hblocks b hb
  have hline : l.number = label.line text := hof.number.symm.trans hnumber
  -- The marks of the line are those of its labels.
  have hmem : ∀ other ∈ d.labels, other.line text = label.line text →
      markOf (.ofText text) other ∈ l.marks := by
    intro other hother hsame
    rw [hgroups.marks l hl]
    exact mem_map_of_mem (mem_filter.2 ⟨hother, decide_eq_true (hsame.trans hline.symm)⟩)
  refine ⟨blocks, hdisplays, b, hb, hnumber, hgroups.shows small htold hl hof, ?_⟩
  intro column hcolumn
  have hself := (hcovers label present column).2 hcolumn
  have hpositive : 1 ≤ column := Nat.le_trans (Nat.le_add_left 1 _) hcolumn.1
  rw [hof.marks]
  refine ⟨fun hclear => ?_, ?_⟩
  · refine hgroups.seen small htold hl (hmem label present rfl) hself hpositive
      (cellAt_inOrder_primary (hmem label present rfl) primary hself ?_)
    intro m hm hstyle hother
    rw [hgroups.marks l hl] at hm
    obtain ⟨other, hmem, rfl⟩ := mem_map.1 hm
    obtain ⟨hmem, hsame⟩ := mem_filter.1 hmem
    exact hclear other hmem hstyle ((of_decide_eq_true hsame).trans hline)
      ((hcovers other hmem column).1 hother)
  · rintro ⟨other, hother, hstyle, hsame, hsecond⟩
    have hmark := (hcovers other hother column).2 hsecond
    exact hgroups.seen small htold hl (hmem other hother hsame) hmark hpositive
      (cellAt_inOrder_secondary (hmem other hother hsame) hstyle hmark)

/-- On the first line there is only the primary label. -/
theorem primary_underlined_spreadLabels :
    ∃ blocks, Displays none "abc\nde" spreadLabels blocks ∧
      ∃ b ∈ blocks, b.number = 1 ∧ b.text = "abc" ∧ b.marks.toList[1]? = some '^' ∧
        b.marks.toList[2]? = some '^' := by
  have htold : ∀ label ∈ spreadLabels.labels,
      Tells "abc\nde" label.span.start ∧ Tells "abc\nde" label.span.stop :=
    fun label _ => ⟨told_of_lt (by decide) _, told_of_lt (by decide) _⟩
  obtain ⟨blocks, hdisplays, b, hb, hnumber, hshows, hmarks⟩ :=
    primary_underlined "abc\nde" (by decide) none spreadLabels htold
      ⟨⟨1, 5⟩, .primary, some "there"⟩ (mem_cons_of_mem _ mem_cons_self) rfl
  have hfirst : Label.line "abc\nde" ⟨⟨1, 5⟩, .primary, some "there"⟩ = 1 := by decide +kernel
  have hclear : ∀ column, ∀ other ∈ spreadLabels.labels, other.style = .secondary →
      other.line "abc\nde" = Label.line "abc\nde" ⟨⟨1, 5⟩, .primary, some "there"⟩ →
      ¬ other.Covers "abc\nde" column := by
    intro column other hother hstyle hsame
    rcases mem_pair.1 hother with rfl | rfl
    · exact absurd hsame (by decide +kernel)
    · cases hstyle
  have hline := hshows.line
  rw [hnumber, hfirst] at hline
  refine ⟨blocks, hdisplays, b, hb, hnumber.trans hfirst, ?_, ?_, ?_⟩
  · exact Option.some.inj (hline.symm.trans (by decide +kernel))
  · exact (hmarks 2 ⟨by decide +kernel, .inl (by decide +kernel)⟩).1 (hclear 2)
  · exact (hmarks 3 ⟨by decide +kernel, .inr (by decide +kernel)⟩).1 (hclear 3)

/-- A primary label inside of a secondary one. -/
def nestedLabels : Diagnostic :=
  { Diagnostic.ofCode "E0308" "mismatched types" with
    labels := [⟨⟨1, 2⟩, .primary, none⟩, ⟨⟨0, 3⟩, .secondary, none⟩] }

/-- The primary label at column 2 is not seen. -/
theorem nestedLabels_hides_primary :
    Label.Covers "abc" ⟨⟨1, 2⟩, .primary, none⟩ 2 ∧
    render false none (.ofText "abc") nestedLabels =
      "error[E0308]: mismatched types\n  --> <source>:1:2\n    |\n  1 | abc\n    | ---\n" := by
  exact ⟨⟨by decide +kernel, .inl (by decide +kernel)⟩, by decide +kernel⟩

end Terminal

end SlotCode
