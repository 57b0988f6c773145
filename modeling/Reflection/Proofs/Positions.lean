import Mathlib.Data.List.DropRight
import Mathlib.Data.List.Infix
import Reflection.Proofs.Placement

namespace Reflection

namespace Text

-- The byte offset at which a line starts, behind the lines in front of it and their line feeds.
-- Lines are counted from one.
def lineStart (text : List Char) (line : Nat) : Nat :=
  byteLength (((splitOn '\n' text).take (line - 1)).flatMap (· ++ ['\n']))

theorem exists_splitOn (separator : Char) (text : List Char) :
    ∃ first more, splitOn separator text = first :: more := by
  cases text with
  | nil => exact ⟨[], [], rfl⟩
  | cons c rest =>
      rw [splitOn]
      split
      · exact ⟨_, _, rfl⟩
      · split <;> exact ⟨_, _, rfl⟩

-- The parts of a text up to some place: one for each separator in front of it, and the part that
-- goes on there, which starts behind the last separator. By induction from the place backwards.
theorem splitOn_append (separator : Char) (before : List Char) :
    ∃ complete : List (List Char), complete.length = before.count separator ∧
      before = complete.flatMap (· ++ [separator]) ++ before.rtakeWhile (· ≠ separator) ∧
      ∀ after first more, splitOn separator after = first :: more →
        splitOn separator (before ++ after) =
          complete ++ (before.rtakeWhile (· ≠ separator) ++ first) :: more := by
  induction before using List.reverseRecOn with
  | nil => exact ⟨[], rfl, rfl, fun _ _ _ h => h⟩
  | append_singleton before c ih =>
      obtain ⟨complete, hcount, hbefore, hsplit⟩ := ih
      by_cases hc : c = separator
      · subst hc
        rw [List.rtakeWhile_concat_neg _ _ _ (by simp)]
        refine ⟨complete ++ [before.rtakeWhile (· ≠ c)], by simp [hcount], ?_, ?_⟩
        · rw [List.flatMap_append, List.flatMap_singleton, List.append_nil, ← List.append_assoc,
            ← hbefore]
        · intro after first more hafter
          have hnext : splitOn c (c :: after) = [] :: first :: more := by
            rw [splitOn, if_pos rfl, hafter]
          rw [List.append_assoc, List.singleton_append, hsplit _ _ _ hnext]
          simp
      · rw [List.rtakeWhile_concat_pos _ _ _ (by simpa using hc)]
        refine ⟨complete, by simp [hcount, hc], ?_, ?_⟩
        · rw [← List.append_assoc, ← hbefore]
        · intro after first more hafter
          have hnext : splitOn separator (c :: after) = (c :: first) :: more := by
            rw [splitOn, if_neg hc, hafter]
          rw [List.append_assoc, List.singleton_append, hsplit _ _ _ hnext]
          simp

theorem takeBytes_append (before after : List Char) :
    takeBytes (byteLength before) (before ++ after) = before := by
  induction before with
  | nil =>
      cases after with
      | nil => rfl
      | cons c after => rw [byteLength, List.nil_append, takeBytes, if_neg c.utf8Size_pos.not_ge]
  | cons c before ih =>
      rw [byteLength, List.cons_append, takeBytes, if_pos (Nat.le_add_right _ _),
        Nat.add_sub_cancel_left, ih]

section Starts

variable {text part : List Char} {line : Nat}

-- A line starts behind the line feed of the one in front of it.
theorem lineStart_succ (hpos : 1 ≤ line) (h : (splitOn '\n' text)[line - 1]? = some part) :
    lineStart text (line + 1) = lineStart text line + (byteLength part + 1) := by
  have hfeed : byteLength ['\n'] = 1 := rfl
  obtain ⟨index, rfl⟩ := Nat.exists_eq_add_of_le' hpos
  rw [Nat.add_sub_cancel] at h
  simp only [lineStart, Nat.add_sub_cancel, List.take_add_one, h]
  simp [hfeed]

theorem lineStart_mono {first second : Nat} (h : first ≤ second) :
    lineStart text first ≤ lineStart text second := by
  have htake := (splitOn '\n' text).take_prefix_take_left (Nat.sub_le_sub_right h 1)
  exact byteLength_le_of_isPrefix (htake.flatMap _)

end Starts

end Text

namespace Position

-- What a position says of a text and a byte offset in it: the text has that many lines, and the
-- offset stands so many bytes behind the start of the last of them, at most at its end.
structure Marks (position : Position) (text : List Char) (offset : Nat) : Prop where
  line_pos : 1 ≤ position.line
  column_pos : 1 ≤ position.column
  on_line : ∃ line, (Text.splitOn '\n' text)[position.line - 1]? = some line ∧
    position.column - 1 ≤ Text.byteLength line
  offset_eq : Text.lineStart text position.line + (position.column - 1) = offset

-- The order of reading: by line, and on one line by column.
def Before (first second : Position) : Prop :=
  first.line < second.line ∨ first.line = second.line ∧ first.column < second.column

-- The line counts the line feeds that have been passed, and the column starts again behind the last
-- of them.
theorem after_eq (before : List Char) :
    after before = ⟨before.count '\n' + 1,
      Text.byteLength (before.rtakeWhile (· ≠ '\n')) + 1⟩ := by
  induction before using List.reverseRecOn with
  | nil => rfl
  | append_singleton before c ih =>
      have hnext : after (before ++ [c]) = (after before).advance c := List.foldl_append
      rw [hnext, ih, advance]
      by_cases hc : c = '\n'
      · subst hc
        rw [if_pos rfl, List.rtakeWhile_concat_neg _ _ _ (by simp)]
        simp [Text.byteLength]
      · rw [if_neg hc, List.rtakeWhile_concat_pos _ _ _ (by simpa using hc)]
        simp [Text.byteLength, hc, Nat.add_right_comm]

theorem before_trichotomy (first second : Position) :
    first.Before second ∨ first = second ∨ second.Before first := by
  obtain ⟨line, column⟩ := first
  obtain ⟨line', column'⟩ := second
  simp only [Before, Position.mk.injEq]
  omega

theorem after_marks (before rest : List Char) :
    (after before).Marks (before ++ rest) (Text.byteLength before) := by
  obtain ⟨complete, hcount, hbefore, hsplit⟩ := Text.splitOn_append '\n' before
  obtain ⟨first, more, hrest⟩ := Text.exists_splitOn '\n' rest
  have hlines := hsplit rest first more hrest
  rw [after_eq, ← hcount]
  refine ⟨Nat.le_add_left _ _, Nat.le_add_left _ _,
    ⟨before.rtakeWhile (· ≠ '\n') ++ first, ?_, ?_⟩, ?_⟩
  · rw [hlines]
    simp
  · simp
  · rw [Text.lineStart, hlines, Nat.add_sub_cancel, Nat.add_sub_cancel, List.take_left,
      ← Text.byteLength_append, ← hbefore]

namespace Marks

variable {text : List Char} {first second : Position} {one other : Nat}

-- A position on an earlier line is in front of the start of the next line.
theorem lt_of_before (hfirst : first.Marks text one) (hsecond : second.Marks text other)
    (h : first.Before second) : one < other := by
  have hone := hfirst.offset_eq
  have hother := hsecond.offset_eq
  rcases h with hline | ⟨hline, hcolumn⟩
  · obtain ⟨part, hpart, hcolumn⟩ := hfirst.on_line
    have hnext := Text.lineStart_succ hfirst.line_pos hpart
    have hle := @Text.lineStart_mono text (first.line + 1) second.line hline
    omega
  · rw [hline] at hone
    have := hfirst.column_pos
    omega

theorem eq_iff (hfirst : first.Marks text one) (hsecond : second.Marks text other) :
    first = second ↔ one = other := by
  constructor
  · rintro rfl
    exact hfirst.offset_eq.symm.trans hsecond.offset_eq
  · intro h
    rcases first.before_trichotomy second with hbefore | heq | hbehind
    · exact absurd h (hfirst.lt_of_before hsecond hbefore).ne
    · exact heq
    · exact absurd h (hsecond.lt_of_before hfirst hbehind).ne'

theorem before_iff (hfirst : first.Marks text one) (hsecond : second.Marks text other) :
    first.Before second ↔ one < other := by
  refine ⟨hfirst.lt_of_before hsecond, fun h => ?_⟩
  rcases first.before_trichotomy second with hbefore | heq | hbehind
  · exact hbefore
  · exact absurd ((hfirst.eq_iff hsecond).mp heq) h.ne
  · exact absurd (hsecond.lt_of_before hfirst hbehind) h.not_gt

end Marks

end Position

theorem Span.position_marks {text : List Char} {span : Span}
    (h : Text.IsBoundary text span.start) : (span.position text).Marks text span.start := by
  obtain ⟨before, ⟨rest, rfl⟩, hstart⟩ := h
  rw [Span.position, ← hstart, Text.takeBytes_append]
  exact Position.after_marks before rest

-- The position of a span marks its start in the text. So two spans have one position only if they
-- start at one offset, and else the one that starts earlier has the earlier position.
theorem Span.position_identifies {text : List Char} {span : Span}
    (h : Text.IsBoundary text span.start) :
    (span.position text).Marks text span.start ∧
      ∀ other : Span, Text.IsBoundary text other.start →
        (span.position text = other.position text ↔ span.start = other.start) ∧
        ((span.position text).Before (other.position text) ↔ span.start < other.start) :=
  ⟨Span.position_marks h, fun _ hother =>
    ⟨(Span.position_marks h).eq_iff (Span.position_marks hother),
      (Span.position_marks h).before_iff (Span.position_marks hother)⟩⟩

-- A line with a character of two bytes, an empty line, and a line that ends with the text.
def threeLines : List Char := "é\n\nab".toList

theorem Span.position_identifies_lines :
    Text.IsBoundary threeLines 3 ∧ Text.IsBoundary threeLines 6 ∧
      (Span.position ⟨3, 4⟩ threeLines).Marks threeLines 3 ∧
      Span.position ⟨3, 4⟩ threeLines ≠ Span.position ⟨6, 6⟩ threeLines ∧
      (Span.position ⟨3, 4⟩ threeLines).Before (Span.position ⟨6, 6⟩ threeLines) := by
  have hempty : Text.IsBoundary threeLines 3 := ⟨"é\n".toList, by decide, by decide⟩
  have hend : Text.IsBoundary threeLines 6 := ⟨threeLines, List.prefix_rfl, by decide⟩
  obtain ⟨hmarks, hother⟩ := @Span.position_identifies threeLines ⟨3, 4⟩ hempty
  obtain ⟨hsame, hbefore⟩ := hother ⟨6, 6⟩ hend
  exact ⟨hempty, hend, hmarks, mt hsame.mp (by decide), hbefore.mpr (by decide)⟩

end Reflection
