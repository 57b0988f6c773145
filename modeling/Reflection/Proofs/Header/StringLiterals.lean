import Reflection.Proofs.Coverage
import Reflection.Proofs.Text

namespace Reflection.Header

open Lexical

-- A line from left to right, a backslash and the character behind it as one pair. A backslash that
-- ends the line stands for itself.
def lineElements : List Char → List (List Char)
  | [] => []
  | '\\' :: c :: rest => ['\\', c] :: lineElements rest
  | c :: rest => [c] :: lineElements rest

-- What belongs to a string literal behind its opening quote, by the rest of the line there.
inductive StringBody (line : List Char) : List Char → Prop where
  -- up to the first quote that is not part of a pair
  | closed {front behind : List (List Char)} (hline : lineElements line = front ++ ['"'] :: behind)
      (hfirst : ['"'] ∉ front) : StringBody line (front.flatten ++ ['"'])
  -- without one, up to the first `]]`
  | bracketed {inner more : List Char} (hopen : ['"'] ∉ lineElements line)
      (hline : line = inner ++ ']' :: ']' :: more)
      (hfirst : ∀ front behind, line = front ++ ']' :: ']' :: behind →
        inner.length ≤ front.length) : StringBody line inner
  -- without either, the whole line
  | whole (hopen : ['"'] ∉ lineElements line) (hnone : ¬[']', ']'] <:+: line) : StringBody line line

variable {line body other rest : List Char}

theorem flatten_lineElements (line : List Char) : (lineElements line).flatten = line := by
  fun_induction lineElements line with
  | case1 => rfl
  | case2 c rest ih => simp [ih]
  | case3 c rest _ ih => simp [ih]

theorem lineElements_cons {c : Char} (hc : c ≠ '\\') (rest : List Char) :
    lineElements (c :: rest) = [c] :: lineElements rest :=
  lineElements.eq_3 c rest fun _ _ h _ => hc h

theorem takeWhile_front {front : List (List Char)} (h : ['"'] ∉ front)
    (behind : List (List Char)) : (front ++ ['"'] :: behind).takeWhile (· ≠ ['"']) = front := by
  rw [List.takeWhile_append_of_pos fun element hmem =>
    decide_eq_true (ne_of_mem_of_not_mem hmem h)]
  simp

namespace StringBody

theorem isPrefix (h : StringBody line body) : body <+: line := by
  cases h with
  | @closed front behind hline _ =>
      refine ⟨behind.flatten, ?_⟩
      rw [← flatten_lineElements line, hline]
      simp
  | bracketed _ hline _ => exact ⟨_, hline.symm⟩
  | whole => exact List.prefix_rfl

-- The line leaves no choice.
theorem unique (h : StringBody line body) (hother : StringBody line other) : body = other := by
  cases h with
  | @closed front behind hline hfirst =>
      cases hother with
      | @closed front' behind' hline' hfirst' =>
          have hfronts : front = front' := by
            rw [← takeWhile_front hfirst behind, ← hline, hline', takeWhile_front hfirst']
          rw [hfronts]
      | bracketed hopen => exact absurd (by simp [hline]) hopen
      | whole hopen => exact absurd (by simp [hline]) hopen
  | bracketed hopen hline hfirst =>
      cases hother with
      | closed hline' _ => exact absurd (by simp [hline']) hopen
      | bracketed _ hline' hfirst' =>
          have hlength := Nat.le_antisymm (hfirst _ _ hline') (hfirst' _ _ hline)
          exact (List.append_inj (hline.symm.trans hline') hlength).1
      | whole _ hnone => exact absurd ⟨_, _, by simpa using hline.symm⟩ hnone
  | whole hopen hnone =>
      cases hother with
      | closed hline' _ => exact absurd (by simp [hline']) hopen
      | bracketed _ hline' _ => exact absurd ⟨_, _, by simpa using hline'.symm⟩ hnone
      | whole => rfl

end StringBody

-- A closing quote is found at the first element that is a quote alone.
theorem elements_of_closed {length : Nat} (h : closedLength? '"' rest = some length) :
    ∃ front behind, lineElements (rest.takeWhile (· ≠ '\n')) = front ++ ['"'] :: behind ∧
      ['"'] ∉ front ∧ rest.take length = front.flatten ++ ['"'] := by
  fun_induction closedLength? '"' rest generalizing length with
  | case1 => cases h
  | case2 => cases h
  | case3 c rest hc ih =>
      obtain ⟨inner, hinner, rfl⟩ := Option.map_eq_some_iff.mp h
      obtain ⟨front, behind, hline, hfirst, htake⟩ := ih hinner
      refine ⟨['\\', c] :: front, behind, ?_, by simp [hfirst], by simp [htake]⟩
      rw [List.takeWhile_cons_of_pos (by decide), List.takeWhile_cons_of_pos (by simpa using hc),
        lineElements, hline, List.cons_append]
  | case4 rest =>
      cases h
      refine ⟨[], lineElements (rest.takeWhile (· ≠ '\n')), ?_, List.not_mem_nil, rfl⟩
      rw [List.takeWhile_cons_of_pos (by decide), lineElements_cons (by decide), List.nil_append]
  | case5 => cases h
  | case6 c rest hpair hne hfeed ih =>
      obtain ⟨inner, hinner, rfl⟩ := Option.map_eq_some_iff.mp h
      have hescape : c ≠ '\\' := by
        rintro rfl
        cases rest with
        | nil => cases hinner
        | cons d rest => exact hpair d rest rfl rfl
      obtain ⟨front, behind, hline, hfirst, htake⟩ := ih hinner
      refine ⟨[c] :: front, behind, ?_, by simp [hfirst, Ne.symm hne], by simp [htake]⟩
      rw [List.takeWhile_cons_of_pos (by simpa using hfeed), lineElements_cons hescape, hline,
        List.cons_append]

theorem elements_of_open (h : closedLength? '"' rest = none) :
    ['"'] ∉ lineElements (rest.takeWhile (· ≠ '\n')) := by
  fun_induction closedLength? '"' rest with
  | case1 => simp [lineElements]
  | case2 rest => simp [lineElements]
  | case3 c rest hc ih =>
      rw [List.takeWhile_cons_of_pos (by decide), List.takeWhile_cons_of_pos (by simpa using hc),
        lineElements]
      simpa using ih (Option.map_eq_none_iff.mp h)
  | case4 => cases h
  | case5 => simp [lineElements]
  | case6 c rest hpair hne hfeed ih =>
      rw [List.takeWhile_cons_of_pos (by simpa using hfeed)]
      by_cases hescape : c = '\\'
      · subst hescape
        cases rest with
        | nil => simp [lineElements]
        | cons d rest => exact absurd rfl (hpair d rest rfl)
      · rw [lineElements_cons hescape, List.mem_cons, not_or]
        exact ⟨by simpa using Ne.symm hne, ih (Option.map_eq_none_iff.mp h)⟩

-- What is taken for a literal is what belongs to it.
theorem stringBody_take (rest : List Char) :
    StringBody (rest.takeWhile (· ≠ '\n')) (rest.take (stringLength rest)) := by
  unfold stringLength
  cases hclosed : closedLength? '"' rest with
  | some length =>
      obtain ⟨front, behind, hline, hfirst, htake⟩ := elements_of_closed hclosed
      dsimp only
      rw [htake]
      exact .closed hline hfirst
  | none =>
      have hopen := elements_of_open hclosed
      dsimp only
      obtain ⟨hnone, hindex⟩ | ⟨inner, more, hline, hfirst, hindex⟩ :=
        Text.indexOf?_cases [']', ']'] (rest.takeWhile (· ≠ '\n'))
      · rw [hindex, Option.getD_none, take_takeWhile]
        exact .whole hopen hnone
      · have hinner : inner <+: rest := by
          refine List.IsPrefix.trans ?_ (List.takeWhile_prefix (· ≠ '\n'))
          exact ⟨_, hline.symm⟩
        rw [hindex, Option.getD_some, ← List.prefix_iff_eq_take.mp hinner]
        exact .bracketed hopen hline hfirst

-- A string literal in a text: its opening quote stands between `before` and `rest`, and `body` is
-- what belongs to it behind the quote, of the rest of the line.
structure IsStringLiteral (text : List Char) (token : Token) (before rest body : List Char) :
    Prop where
  text_eq : text = before ++ '"' :: rest
  start_eq : token.start = Text.byteLength before
  token_eq : token.text = '"' :: body
  stop_eq : token.stop = Text.byteLength (before ++ '"' :: body)
  exact_end : ∀ other, StringBody (rest.takeWhile (· ≠ '\n')) other ↔ other = body
  boundary : Text.IsBoundary text token.stop
  one_line : '\n' ∉ token.text

-- Every string token ends where it has to, between two characters and on its own line.
theorem string_token_ends {text : List Char} {token : Token} (hmem : token ∈ tokenize text)
    (hkind : token.kind = .string) :
    ∃ before rest body, IsStringLiteral text token before rest body := by
  have hitem : token ∈ (scan text).items := by
    rcases List.mem_append.mp hmem with hitem | hending
    · exact hitem
    · rw [List.mem_singleton.mp hending, kind_ending] at hkind
      cases hkind
  obtain ⟨before, c, rest, htext, hstart, hrule, htoken⟩ := lexeme_of_mem hitem
  rw [hkind] at hrule
  obtain rfl := (lexeme_kind c rest).2 hrule
  rw [Nat.zero_add] at hstart
  rw [lexeme_string] at htoken
  have hbody := stringBody_take rest
  have hprefix : before ++ '"' :: rest.take (stringLength rest) <+: text := by
    rw [htext]
    exact (List.prefix_append_right_inj _).mpr
      (List.cons_prefix_cons.mpr ⟨rfl, List.take_prefix _ _⟩)
  have hstop : token.stop = Text.byteLength (before ++ '"' :: rest.take (stringLength rest)) := by
    rw [Token.stop, hstart, htoken, Text.byteLength_append]
  refine ⟨before, rest, _, htext, hstart, htoken, hstop, fun other => ⟨fun h => h.unique hbody, ?_⟩,
    hstop ▸ Text.isBoundary_of_isPrefix hprefix, ?_⟩
  · rintro rfl
    exact hbody
  · rw [htoken]
    intro hfeed
    have hline := hbody.isPrefix.subset ((List.mem_cons.mp hfeed).resolve_left (by decide))
    simpa using List.mem_takeWhile_imp hline

-- A closed literal with a quote and two brackets in it, and one that nothing closes on its line.
def literalLines : List Char := "s = \"a\\\"]]\" + \"é\\\"]] \\\n\"".toList

def openLiteral : Token := ⟨.string, 14, [' '], "\"é\\\"".toList⟩

theorem string_token_ends_open :
    openLiteral ∈ tokenize literalLines ∧ openLiteral.kind = .string ∧
      ∃ before rest body, IsStringLiteral literalLines openLiteral before rest body := by
  have hmem : openLiteral ∈ tokenize literalLines := by decide +kernel
  exact ⟨hmem, rfl, string_token_ends hmem rfl⟩

end Reflection.Header
