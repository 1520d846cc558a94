import Mathlib.Data.List.Induction
import SlotCode.Source.LineMap

/-!
# Lines, columns and bytes

A line map is exact: the line of an offset counts the line breaks before it, the column counts the
bytes since the last of them, and the lines that the map cuts out of the text are the pieces between
its line breaks.  That is so as long as the numbers fit into words; in a text that a word can measure
only the last offset may be too far (`LineMap.Overflows`).

Positions are about bytes and lines are about characters.  The two meet in `startsFrom_eq`: the
byte of a line break occurs in the encoding of a line break and nowhere else, so that looking for
that byte, one byte at a time, finds the same line starts as going through the characters.
-/

namespace SlotCode

open List

variable {text : String} {n o index : Nat} {cs piece : List Char} {bs : List UInt8}

/-! ## Bytes -/

/-- The byte that a line break is stored in. -/
def lineFeed : UInt8 := 10

/-- The bytes that a text is stored in. -/
def bytesOf (text : String) : List UInt8 :=
  text.toByteArray.data.toList

/-- Number of bytes after the last line break, or all of them where there is none. -/
def sinceBreak (bs : List UInt8) : Nat :=
  (bs.reverse.takeWhile (· ≠ lineFeed)).length

/-- The line and the column of an offset, counted byte by byte. -/
def placeOf (text : String) (o : Nat) : Position :=
  ⟨((bytesOf text).take o).count lineFeed + 1, sinceBreak ((bytesOf text).take o) + 1⟩

/-- `a` comes before `b` in a text. -/
def Position.Before (a b : Position) : Prop :=
  a.line < b.line ∨ a.line = b.line ∧ a.column < b.column

theorem toWord_of_lt (h : n < Nat.pow 2 32) : toWord n = n :=
  Nat.mod_eq_of_lt h

theorem toWord_le (n : Nat) : toWord n ≤ n :=
  Nat.mod_le n _

theorem bytesOf_eq (text : String) :
    bytesOf text = text.toList.flatMap String.utf8EncodeChar := by
  have h := String.toByteArray_ofList (l := text.toList)
  rw [String.ofList_toList] at h
  rw [bytesOf, h, utf8Encode, toList_data_toByteArray]

theorem length_bytesOf (text : String) : (bytesOf text).length = text.utf8ByteSize := rfl

theorem length_take_bytesOf (inside : o ≤ text.utf8ByteSize) :
    ((bytesOf text).take o).length = o := by
  rw [length_take, length_bytesOf, Nat.min_eq_left inside]

theorem byteLength_cons (c : Char) (cs : List Char) :
    byteLength (c :: cs) = c.utf8Size + byteLength cs := rfl

theorem eq_nil_of_byteLength (h : byteLength cs = 0) : cs = [] := by
  cases cs with
  | nil => rfl
  | cons c cs =>
    have := c.utf8Size_pos
    rw [byteLength_cons] at h
    omega

theorem byteLength_append (as bs : List Char) :
    byteLength (as ++ bs) = byteLength as + byteLength bs := by
  induction as with
  | nil => exact (Nat.zero_add _).symm
  | cons a as ih => rw [cons_append, byteLength_cons, ih, byteLength_cons, Nat.add_assoc]

theorem cutBytes?_append (as bs : List Char) :
    cutBytes? (byteLength as) (as ++ bs) = some (as, bs) := by
  induction as with
  | nil => rw [nil_append]; exact cutBytes?.eq_1 bs
  | cons a as ih =>
    obtain ⟨n, size⟩ := Nat.exists_eq_succ_of_ne_zero (Nat.pos_iff_ne_zero.1 a.utf8Size_pos)
    have total : byteLength (a :: as) = n + byteLength as + 1 := by
      rw [byteLength_cons, size]
      omega
    rw [total, cons_append, cutBytes?, if_pos (by omega),
      show n + byteLength as + 1 - a.utf8Size = byteLength as by omega, ih, Option.map_some]

theorem sliceBytes?_append (front middle back : List Char) :
    sliceBytes? (front ++ (middle ++ back)) (byteLength front)
      (byteLength front + byteLength middle) = some middle := by
  rw [sliceBytes?, if_pos (Nat.le_add_right _ _), cutBytes?_append, Option.bind_some,
    Nat.add_sub_cancel_left, cutBytes?_append, Option.map_some]

theorem lineFeed_ne_ofNat {n : Nat} (high : 128 ≤ n) (small : n < 256) :
    lineFeed ≠ UInt8.ofNat n := by
  intro same
  have values := congrArg UInt8.toNat same
  rw [UInt8.toNat_ofNat'] at values
  change 10 = _ at values
  omega

/-- Only a line break has the byte of a line break in its encoding: the bytes of a longer encoding
are 128 and above. -/
theorem lineFeed_mem_encode {c : Char} : lineFeed ∈ String.utf8EncodeChar c ↔ c = '\n' := by
  constructor
  · intro h
    apply Char.toNat_inj.1
    change c.val.toNat = 10
    by_cases short : c.val.toNat ≤ 127
    · simp only [String.utf8EncodeChar, short, if_true, mem_singleton] at h
      have values := congrArg UInt8.toNat h
      rw [UInt8.toNat_ofNat'] at values
      change 10 = _ at values
      omega
    · exfalso
      simp only [String.utf8EncodeChar, short, if_false] at h
      split at h
      · simp only [mem_cons, not_mem_nil, or_false] at h
        rcases h with h | h <;> exact lineFeed_ne_ofNat (by omega) (by omega) h
      · split at h
        · simp only [mem_cons, not_mem_nil, or_false] at h
          rcases h with h | h | h <;> exact lineFeed_ne_ofNat (by omega) (by omega) h
        · simp only [mem_cons, not_mem_nil, or_false] at h
          rcases h with h | h | h | h <;> exact lineFeed_ne_ofNat (by omega) (by omega) h
  · rintro rfl
    decide

theorem sinceBreak_concat (bs : List UInt8) (b : UInt8) :
    sinceBreak (bs ++ [b]) = if b = lineFeed then 0 else sinceBreak bs + 1 := by
  rw [sinceBreak, reverse_append, reverse_singleton, singleton_append, takeWhile_cons]
  by_cases h : b = lineFeed
  · simp [h]
  · simp [h, sinceBreak]

/-! ## Line starts by bytes -/

/-- The offset after every line break, for bytes of which the first has offset `offset`. -/
def byteStarts (offset : Nat) : List UInt8 → List Nat
  | [] => []
  | b :: bs =>
    if b = lineFeed then (offset + 1) :: byteStarts (offset + 1) bs else byteStarts (offset + 1) bs

theorem byteStarts_append (offset : Nat) (as bs : List UInt8) :
    byteStarts offset (as ++ bs) = byteStarts offset as ++ byteStarts (offset + as.length) bs := by
  induction as generalizing offset with
  | nil => rfl
  | cons a as ih =>
    have shift : offset + (a :: as).length = offset + 1 + as.length := by
      rw [length_cons]; omega
    rw [cons_append, byteStarts, byteStarts, ih, shift]
    split <;> rfl

theorem byteStarts_of_not_mem (offset : Nat) (h : lineFeed ∉ bs) : byteStarts offset bs = [] := by
  induction bs generalizing offset with
  | nil => rfl
  | cons b bs ih =>
    rw [mem_cons, not_or] at h
    rw [byteStarts, if_neg (Ne.symm h.1), ih (offset + 1) h.2]

theorem length_byteStarts (offset : Nat) (bs : List UInt8) :
    (byteStarts offset bs).length = bs.count lineFeed := by
  induction bs generalizing offset with
  | nil => rfl
  | cons b bs ih =>
    rw [byteStarts, count_cons]
    by_cases h : b = lineFeed
    · simp [h, ih]
    · simp [h, ih]

theorem mem_byteStarts_bounds {offset start : Nat} (h : start ∈ byteStarts offset bs) :
    offset < start ∧ start ≤ offset + bs.length := by
  induction bs generalizing offset with
  | nil => cases h
  | cons b bs ih =>
    rw [byteStarts] at h
    rw [length_cons]
    split at h
    · rcases mem_cons.1 h with rfl | h
      · omega
      · have := ih h
        omega
    · have := ih h
      omega

/-- The starts up to an offset are those that the bytes before it give. -/
theorem takeWhile_byteStarts (offset n : Nat) (h : n ≤ bs.length) :
    (byteStarts offset bs).takeWhile (· ≤ offset + n) = byteStarts offset (bs.take n) := by
  have len : (bs.take n).length = n := by rw [length_take]; omega
  conv => lhs; rw [← take_append_drop n bs, byteStarts_append, len]
  rw [takeWhile_append_of_pos]
  · have none : (byteStarts (offset + n) (bs.drop n)).takeWhile (· ≤ offset + n) = [] := by
      cases later : byteStarts (offset + n) (bs.drop n) with
      | nil => rfl
      | cons start rest =>
        have mem : start ∈ byteStarts (offset + n) (bs.drop n) := by rw [later]; simp
        have := (mem_byteStarts_bounds mem).1
        rw [takeWhile_cons, if_neg (by simpa using this)]
    rw [none, append_nil]
  · intro start mem
    have := (mem_byteStarts_bounds mem).2
    rw [len] at this
    simpa using this

/-- From the last start on, the bytes since the last line break lead to the end. -/
theorem getLastD_byteStarts (offset : Nat) (bs : List UInt8) :
    (byteStarts offset bs).getLastD offset + sinceBreak bs = offset + bs.length := by
  induction bs using List.reverseRecOn with
  | nil => rfl
  | append_singleton bs b ih =>
    rw [byteStarts_append, sinceBreak_concat, byteStarts, byteStarts, length_append, length_singleton]
    split
    · rw [getLastD_concat]
      omega
    · rw [append_nil]
      omega

/-- The last line break is the only thing that keeps the bytes since then from being all. -/
theorem sinceBreak_eq_length_iff : sinceBreak bs = bs.length ↔ lineFeed ∉ bs := by
  have whole := getLastD_byteStarts 0 bs
  constructor
  · intro all mem
    have some : byteStarts 0 bs ≠ [] := by
      rw [← length_pos_iff, length_byteStarts]
      exact count_pos_iff.2 mem
    have last := mem_byteStarts_bounds (getLast_mem some)
    rw [getLastD_eq_getLast?, getLast?_eq_some_getLast some, Option.getD_some] at whole
    omega
  · intro none
    rw [byteStarts_of_not_mem 0 none, getLastD_nil] at whole
    omega

/-- Neither number of a place is larger than one behind the offset. -/
theorem placeOf_le (inside : o ≤ text.utf8ByteSize) :
    (placeOf text o).line ≤ o + 1 ∧ (placeOf text o).column ≤ o + 1 := by
  have len := length_take_bytesOf inside
  have breaks := count_le_length (a := lineFeed) (l := (bytesOf text).take o)
  have last := getLastD_byteStarts 0 ((bytesOf text).take o)
  simp only [placeOf]
  omega

theorem LineMap.startsFrom_eq (offset : Nat) (cs : List Char) :
    LineMap.startsFrom offset cs = byteStarts offset (cs.flatMap String.utf8EncodeChar) := by
  induction cs generalizing offset with
  | nil => rfl
  | cons c cs ih =>
    rw [LineMap.startsFrom, flatMap_cons, byteStarts_append, String.length_utf8EncodeChar, ← ih]
    by_cases h : c = '\n'
    · subst h
      rfl
    · rw [if_neg h, byteStarts_of_not_mem offset (mt lineFeed_mem_encode.1 h), nil_append]

namespace LineMap

/-! ## Positions -/

section

variable (small : text.utf8ByteSize < Nat.pow 2 32)

include small

/-- No line starts too late for a word. -/
theorem starts_eq_startsFrom : (ofText text).starts = 0 :: startsFrom 0 text.toList := by
  have hfits : (startsFrom 0 text.toList).map toWord = startsFrom 0 text.toList := by
    refine (map_congr_left fun start hstart => toWord_of_lt ?_).trans (map_id _)
    rw [startsFrom_eq, ← bytesOf_eq] at hstart
    have hbound := (mem_byteStarts_bounds hstart).2
    rw [length_bytesOf] at hbound
    omega
  rw [ofText, hfits]

theorem starts_ofText : (ofText text).starts = 0 :: byteStarts 0 (bytesOf text) := by
  rw [starts_eq_startsFrom small, startsFrom_eq, bytesOf_eq]

/-- Where an offset stands, with both numbers cut down to words as the map does it. -/
theorem position_ofText (inside : o ≤ text.utf8ByteSize) :
    (ofText text).position o = ⟨toWord (placeOf text o).line, toWord (placeOf text o).column⟩ := by
  have before : (0 :: byteStarts 0 (bytesOf text)).takeWhile (· ≤ o) =
      0 :: byteStarts 0 ((bytesOf text).take o) := by
    have rest := takeWhile_byteStarts 0 o (show o ≤ (bytesOf text).length from inside)
    rw [Nat.zero_add] at rest
    rw [takeWhile_cons, if_pos (by simp), rest]
  have last := getLastD_byteStarts 0 ((bytesOf text).take o)
  rw [length_take_bytesOf inside] at last
  have column : o - (byteStarts 0 ((bytesOf text).take o)).getLastD 0 =
      sinceBreak ((bytesOf text).take o) := by omega
  simp only [position, starts_ofText small, toWord_of_lt (Nat.lt_of_le_of_lt inside small), before,
    length_cons, length_byteStarts, getLastD_cons, column, placeOf]

end

theorem getElem?_cons_append_length {α : Type} (a : α) (as bs : List α) :
    (a :: (as ++ bs))[as.length]? = some (as.getLastD a) := by
  induction as generalizing a with
  | nil => rfl
  | cons b as ih =>
    rw [length_cons, getElem?_cons_succ, cons_append, ih, getLastD_cons]

/-- The line of an offset starts the bytes since the last line break before it. -/
theorem start_ofText (small : text.utf8ByteSize < Nat.pow 2 32) (inside : o ≤ text.utf8ByteSize) :
    ∃ start, (ofText text).starts[(placeOf text o).line - 1]? = some start ∧
      start + ((placeOf text o).column - 1) = o := by
  rw [placeOf, Nat.add_sub_cancel, Nat.add_sub_cancel]
  refine ⟨(byteStarts 0 ((bytesOf text).take o)).getLastD 0, ?_, ?_⟩
  · have apart : byteStarts 0 (bytesOf text) = byteStarts 0 ((bytesOf text).take o) ++
        byteStarts (0 + ((bytesOf text).take o).length) ((bytesOf text).drop o) := by
      rw [← byteStarts_append, take_append_drop]
    rw [starts_ofText small, ← length_byteStarts 0, apart]
    exact getElem?_cons_append_length 0 _ _
  · have last := getLastD_byteStarts 0 ((bytesOf text).take o)
    rw [length_take_bytesOf inside] at last
    omega

/-! ## Texts of lines -/

/-- The pieces of a text between its line breaks. -/
def pieces (cs : List Char) : List (List Char) :=
  cs.splitOn '\n'

theorem pieces_cons (c : Char) (cs : List Char) :
    pieces (c :: cs) =
      if c = '\n' then [] :: pieces cs else (pieces cs).modifyHead (c :: ·) := by
  rw [pieces, List.splitOn, splitOnP_cons_eq_if_modifyHead]
  simp only [beq_iff_eq]
  rfl

theorem length_pieces (offset : Nat) (cs : List Char) :
    (pieces cs).length = (startsFrom offset cs).length + 1 := by
  induction cs generalizing offset with
  | nil => rfl
  | cons c cs ih =>
    rw [pieces_cons, startsFrom]
    split
    · rw [length_cons, ih (offset + c.utf8Size), length_cons]
    · rw [length_modifyHead, ih (offset + c.utf8Size)]

theorem not_mem_of_mem_pieces (h : piece ∈ pieces cs) : '\n' ∉ piece := by
  induction cs generalizing piece with
  | nil =>
    rw [mem_singleton.1 h]
    exact not_mem_nil
  | cons c cs ih =>
    rw [pieces_cons] at h
    split at h
    · rcases mem_cons.1 h with rfl | h
      · exact not_mem_nil
      · exact ih h
    · cases first : pieces cs with
      | nil => rw [first] at h; cases h
      | cons head rest =>
        rw [first, modifyHead_cons] at h
        rcases mem_cons.1 h with rfl | h
        · have unbroken : '\n' ∉ head := ih (by rw [first]; exact mem_cons_self)
          rw [mem_cons, not_or]
          exact ⟨Ne.symm ‹c ≠ '\n'›, unbroken⟩
        · exact ih (by rw [first]; exact mem_cons_of_mem head h)

/-- The piece number `index` of `cs` lies between two line starts: it begins at its own, and ends
one byte before the next one or, without a next one, at the end of the text. -/
theorem exists_piece_between (offset : Nat) (h : (pieces cs)[index]? = some piece) :
    ∃ front back, cs = front ++ (piece ++ back) ∧
      (offset :: startsFrom offset cs)[index]? = some (offset + byteLength front) ∧
      (back = [] ∧ (offset :: startsFrom offset cs)[index + 1]? = none ∨
        (offset :: startsFrom offset cs)[index + 1]? =
          some (offset + byteLength front + byteLength piece + 1)) := by
  induction cs generalizing offset piece index with
  | nil =>
    cases index with
    | zero =>
      cases h
      exact ⟨[], [], rfl, rfl, .inl ⟨rfl, rfl⟩⟩
    | succ index => cases h
  | cons c cs ih =>
    rw [pieces_cons] at h
    rw [startsFrom]
    by_cases breaks : c = '\n'
    · rw [if_pos breaks] at h ⊢
      cases index with
      | zero =>
        cases h
        exact ⟨[], c :: cs, rfl, rfl, .inr (by rw [breaks]; rfl)⟩
      | succ index =>
        obtain ⟨front, back, rfl, start, stop⟩ := ih (offset + c.utf8Size) h
        refine ⟨c :: front, back, rfl, ?_⟩
        rw [byteLength_cons, ← Nat.add_assoc]
        exact ⟨start, stop⟩
    · rw [if_neg breaks] at h ⊢
      rw [getElem?_modifyHead] at h
      cases index with
      | zero =>
        obtain ⟨tail, first, rfl⟩ := Option.map_eq_some_iff.1 h
        obtain ⟨front, back, rfl, start, stop⟩ := ih (offset + c.utf8Size) first
        -- the first piece begins where the text does
        have here : front = [] := by
          rw [getElem?_cons_zero, Option.some.injEq] at start
          exact eq_nil_of_byteLength (by omega)
        subst here
        refine ⟨[], back, rfl, rfl, stop.imp id fun next => ?_⟩
        have longer : offset + byteLength [] + byteLength (c :: tail) + 1 =
            offset + c.utf8Size + byteLength [] + byteLength tail + 1 := by
          rw [byteLength_cons]
          omega
        rw [longer]
        exact next
      | succ index =>
        obtain ⟨front, back, rfl, start, stop⟩ := ih (offset + c.utf8Size) h
        refine ⟨c :: front, back, rfl, ?_⟩
        rw [byteLength_cons, ← Nat.add_assoc]
        exact ⟨start, stop⟩

section

variable (small : text.utf8ByteSize < Nat.pow 2 32)

include small

theorem lineText?_ofText (h : (pieces text.toList)[index]? = some piece) :
    (ofText text).lineText? text (index + 1) = some (String.ofList piece) := by
  obtain ⟨front, back, whole, start, stop⟩ := exists_piece_between 0 h
  rw [Nat.zero_add] at start stop
  have cut : sliceBytes? text.toList (byteLength front) (byteLength front + byteLength piece) =
      some piece := by
    rw [whole]
    exact sliceBytes?_append front piece back
  rw [lineText?, starts_eq_startsFrom small, start, Option.bind_some]
  rcases stop with ⟨rfl, last⟩ | next
  · have ending : byteLength text.toList = byteLength front + byteLength piece := by
      rw [whole, append_nil, byteLength_append]
    simp only [last, ending, cut, Option.map_some]
  · simp only [next, Nat.add_sub_cancel, cut, Option.map_some]

theorem isSome_lineText?_ofText {line : Nat} :
    ((ofText text).lineText? text line).isSome ↔
      1 ≤ line ∧ line ≤ (pieces text.toList).length := by
  cases line with
  | zero => exact ⟨fun h => absurd h Bool.false_ne_true, fun h => absurd h.1 (by omega)⟩
  | succ index =>
    by_cases inside : index < (pieces text.toList).length
    · rw [lineText?_ofText small (getElem?_eq_getElem inside)]
      exact ⟨fun _ => ⟨by omega, inside⟩, fun _ => rfl⟩
    · have past : (ofText text).lineText? text (index + 1) = none := by
        rw [lineText?, starts_eq_startsFrom small, getElem?_eq_none, Option.bind_none]
        rw [length_cons, ← length_pieces]
        omega
      rw [past]
      exact ⟨fun h => absurd h Bool.false_ne_true, fun h => absurd h.2 (by omega)⟩

theorem not_mem_lineText?_ofText {content : String} {line : Nat}
    (h : (ofText text).lineText? text line = some content) : '\n' ∉ content.toList := by
  have inside := (isSome_lineText?_ofText small).1 (Option.isSome_of_mem h)
  obtain ⟨index, rfl⟩ := Nat.exists_eq_add_of_le' inside.1
  have piece := getElem?_eq_getElem (l := pieces text.toList) (i := index) inside.2
  rw [lineText?_ofText small piece, Option.some.injEq] at h
  rw [← h, String.toList_ofList]
  exact not_mem_of_mem_pieces (getElem_mem _)

omit small in
theorem filterMap_range' {α β : Type} {f : Nat → Option β} {g : α → β} {k : Nat} {l : List α}
    (h : ∀ i a, l[i]? = some a → f (k + i) = some (g a)) :
    (List.range' k l.length).filterMap f = l.map g := by
  induction l generalizing k with
  | nil => rfl
  | cons a l ih =>
    have rest : (List.range' (k + 1) l.length).filterMap f = l.map g := by
      apply ih
      intro i b hb
      rw [Nat.add_right_comm]
      exact h (i + 1) b hb
    have first : f k = some (g a) := h 0 a rfl
    rw [length_cons, range'_succ, filterMap_cons_some first, rest, map_cons]

/-- The texts of all lines, in order, are the pieces of the text. -/
theorem filterMap_lineText?_ofText :
    (List.range' 1 (pieces text.toList).length).filterMap ((ofText text).lineText? text) =
      (pieces text.toList).map String.ofList := by
  apply filterMap_range'
  intro index piece h
  rw [Nat.add_comm]
  exact lineText?_ofText small h

end

theorem intercalate_pieces (text : String) :
    "\n".intercalate ((pieces text.toList).map String.ofList) = text := by
  rw [← String.toList_inj, String.toList_intercalate, map_map]
  have back : String.toList ∘ String.ofList = id := by
    funext cs
    exact String.toList_ofList
  rw [back, map_id]
  exact intercalate_splitOn '\n'

/-! ## Exactness -/

/-- The only offset whose line or column is too large for a word: the end of a text of `2^32 - 1` bytes,
none or all of which are line breaks. -/
def Overflows (text : String) (o : Nat) : Prop :=
  o + 1 = Nat.pow 2 32 ∧
    (lineFeed ∉ (bytesOf text).take o ∨ ∀ b ∈ (bytesOf text).take o, b = lineFeed)

/-- The text is `2^32 - 1` line breaks, so that a word cannot count its lines. -/
def Crowded (text : String) : Prop :=
  text.utf8ByteSize + 1 = Nat.pow 2 32 ∧ ∀ b ∈ bytesOf text, b = lineFeed

/-- `m` is exact for the text. -/
structure Exact (m : LineMap) (text : String) : Prop where
  /-- The line counts the line breaks before an offset, the column the bytes since the last one. -/
  position : ∀ o ≤ text.utf8ByteSize, ¬ Overflows text o →
    m.position o = placeOf text o
  /-- The start of the line and the column lead back to the offset. -/
  start : ∀ o ≤ text.utf8ByteSize, ¬ Overflows text o →
    ∃ start, m.starts[(m.position o).line - 1]? = some start ∧
      start + ((m.position o).column - 1) = o
  increasing : ∀ o o', o < o' → o' ≤ text.utf8ByteSize → ¬ Overflows text o' →
    (m.position o).Before (m.position o')
  /-- Every line has a text, and no other number has. -/
  isSome_lineText : ¬ Crowded text → ∀ line,
    (m.lineText? text line).isSome ↔ 1 ≤ line ∧ line ≤ m.lineCount
  unbroken : ∀ line content, m.lineText? text line = some content → '\n' ∉ content.toList
  joined : ¬ Crowded text →
    "\n".intercalate ((List.range' 1 m.lineCount).filterMap (m.lineText? text)) = text
  /-- What is too large for a word wraps. -/
  wrapped : (∀ o ≤ text.utf8ByteSize, m.position o =
      ⟨toWord (placeOf text o).line, toWord (placeOf text o).column⟩) ∧
    m.lineCount = toWord ((bytesOf text).count lineFeed + 1)

theorem not_overflows_of_lt {o' : Nat} (before : o < o') (small : o' < Nat.pow 2 32) :
    ¬ Overflows text o := by
  intro overflows
  have := overflows.1
  omega

section

variable (small : text.utf8ByteSize < Nat.pow 2 32)

include small

/-- A later offset is on a later line or, on the same line, further from the line's start. -/
theorem before_of_lt {o' : Nat} (before : o < o') (inside : o' ≤ text.utf8ByteSize) :
    (placeOf text o).Before (placeOf text o') := by
  have lines : (placeOf text o).line ≤ (placeOf text o').line :=
    Nat.succ_le_succ ((take_sublist_take_left (Nat.le_of_lt before)).count_le lineFeed)
  rcases Nat.lt_or_eq_of_le lines with later | same
  · exact .inl later
  · obtain ⟨start, at_o, reach_o⟩ :=
      start_ofText small (Nat.le_trans (Nat.le_of_lt before) inside)
    obtain ⟨start', at_o', reach_o'⟩ := start_ofText small inside
    have agree : start = start' := by
      rw [same, at_o'] at at_o
      exact (Option.some.inj at_o).symm
    have first : 1 ≤ (placeOf text o).column := Nat.le_add_left 1 _
    exact .inr ⟨same, by omega⟩

/-- A place whose numbers fit into words is the one that the map gives. -/
theorem position_of_not_overflows (inside : o ≤ text.utf8ByteSize) (fits : ¬ Overflows text o) :
    (ofText text).position o = placeOf text o := by
  have len := length_take_bytesOf inside
  obtain ⟨lines, columns⟩ := placeOf_le inside
  have line : (placeOf text o).line < Nat.pow 2 32 := by
    by_contra large
    have all : ((bytesOf text).take o).count lineFeed + 1 = Nat.pow 2 32 := Nat.le_antisymm
      (Nat.le_trans lines (by omega)) (Nat.le_of_not_lt large)
    refine fits ⟨by omega, .inr fun b hb => (count_eq_length.1 ?_ b hb).symm⟩
    omega
  have column : (placeOf text o).column < Nat.pow 2 32 := by
    by_contra large
    have all : sinceBreak ((bytesOf text).take o) + 1 = Nat.pow 2 32 := Nat.le_antisymm
      (Nat.le_trans columns (by omega)) (Nat.le_of_not_lt large)
    refine fits ⟨by omega, .inl (sinceBreak_eq_length_iff.1 ?_)⟩
    omega
  rw [position_ofText small inside, toWord_of_lt line, toWord_of_lt column]

theorem lineCount_ofText (fits : ¬ Crowded text) :
    (ofText text).lineCount = (pieces text.toList).length := by
  have lines : (pieces text.toList).length = (bytesOf text).count lineFeed + 1 := by
    rw [length_pieces 0, startsFrom_eq, ← bytesOf_eq, length_byteStarts]
  have most := count_le_length (a := lineFeed) (l := bytesOf text)
  have len := length_bytesOf text
  have few : (bytesOf text).count lineFeed + 1 < Nat.pow 2 32 := by
    by_contra large
    have all : (bytesOf text).count lineFeed = (bytesOf text).length := by omega
    exact fits ⟨by omega, fun b hb => (count_eq_length.1 all b hb).symm⟩
  rw [lineCount, starts_eq_startsFrom small, length_cons, ← length_pieces, lines, toWord_of_lt few]

end

/-- Four lines: characters of two and three bytes, an empty line, and a line break at the end. -/
def fourLines : String := "é\n\n漢x\n"

/-- One character over and over. -/
def repeated (count : Nat) (c : Char) : String :=
  String.ofList (List.replicate count c)

theorem bytesOf_repeated {c : Char} {b : UInt8} (h : String.utf8EncodeChar c = [b]) (count : Nat) :
    bytesOf (repeated count c) = List.replicate count b := by
  rw [bytesOf_eq, repeated, String.toList_ofList, flatMap_replicate, h]
  induction count with
  | zero => rfl
  | succ count ih => rw [replicate_succ, flatten_cons, ih, singleton_append, replicate_succ]

theorem utf8ByteSize_repeated {c : Char} {b : UInt8} (h : String.utf8EncodeChar c = [b]) (count : Nat) :
    (repeated count c).utf8ByteSize = count := by
  rw [← length_bytesOf, bytesOf_repeated h, length_replicate]

/-- At the end of a line that is too long the column wraps to 0. -/
theorem position_longLine (full : n + 1 = Nat.pow 2 32) :
    (repeated n 'a').utf8ByteSize < Nat.pow 2 32 ∧ (ofText (repeated n 'a')).position n = ⟨1, 0⟩ := by
  have size := utf8ByteSize_repeated (c := 'a') (b := 97) rfl n
  have small : (repeated n 'a').utf8ByteSize < Nat.pow 2 32 := by omega
  have bytes : (bytesOf (repeated n 'a')).take n = List.replicate n 97 := by
    rw [bytesOf_repeated (b := 97) rfl, take_replicate, Nat.min_self]
  have none : lineFeed ∉ List.replicate n 97 := fun h => absurd (eq_of_mem_replicate h) (by decide)
  refine ⟨small, ?_⟩
  rw [position_ofText small (Nat.le_of_eq size.symm), placeOf, bytes, count_eq_zero_of_not_mem none,
    sinceBreak_eq_length_iff.2 none, length_replicate, full]
  rfl

/-- Behind too many lines the number of the line wraps to 0, and so does the number of lines. -/
theorem position_manyLines (full : n + 1 = Nat.pow 2 32) :
    (repeated n '\n').utf8ByteSize < Nat.pow 2 32 ∧ (ofText (repeated n '\n')).position n = ⟨0, 1⟩ ∧
      (ofText (repeated n '\n')).lineCount = 0 := by
  have size := utf8ByteSize_repeated (c := '\n') (b := lineFeed) rfl n
  have small : (repeated n '\n').utf8ByteSize < Nat.pow 2 32 := by omega
  have bytes := bytesOf_repeated (c := '\n') (b := lineFeed) rfl n
  have since : sinceBreak (List.replicate n lineFeed) = 0 := by
    rw [sinceBreak, reverse_replicate, takeWhile_replicate]
    rfl
  refine ⟨small, ?_, ?_⟩
  · rw [position_ofText small (Nat.le_of_eq size.symm), placeOf, bytes, take_replicate, Nat.min_self, since,
      count_replicate_self, full]
    rfl
  · rw [lineCount, starts_ofText small, length_cons, length_byteStarts, bytes, count_replicate_self, full]
    rfl

end LineMap

end SlotCode
