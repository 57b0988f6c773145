import Reflection.Proofs.Header.Alongside.Whole
import Reflection.Proofs.Header.Expansion
import Reflection.Proofs.Header.Functions

namespace Reflection.Header

open Lexical

section Pieces

-- What follows a closing brace makes no difference in front of it.
theorem endsBefore_rBrace (next text : List Char) :
    endsBefore ('}' :: next) text = endsBefore ['}'] text := by
  cases text with
  | nil => rfl
  | cons c more =>
      have hsymbol : symbolEndsBefore ('}' :: next) c more = symbolEndsBefore ['}'] c more := by
        unfold symbolEndsBefore
        split <;> simp
      rw [endsBefore, endsBefore, hsymbol]
      rfl

-- A text whose last piece is a closing brace, and whose literals are closed.
structure EndsWithBrace (text : List Char) : Prop where
  last : (fragments text).getLast?.bind Fragment.token? = some (.rBrace, ['}'])
  closed : ∀ piece ∈ fragments text, closedLiteral piece.text = true

namespace EndsWithBrace

variable {c : Char} {more rest text : List Char} {kind : Option TokenKind}

theorem ne_nil (h : EndsWithBrace text) : text ≠ [] := by
  rintro rfl
  have hlast := h.last
  rw [fragments] at hlast
  cases hlast

theorem eq_brace (h : EndsWithBrace (c :: more)) (hlexeme : lexeme c more = ⟨kind, more.length⟩) :
    c = '}' ∧ more = [] := by
  have hpieces := @fragments_of_lexeme c more [] kind (by rwa [List.append_nil])
  have hlast := h.last
  rw [List.append_nil] at hpieces
  rw [hpieces, fragments, List.getLast?_singleton, Option.bind_some] at hlast
  obtain ⟨_, _, hpiece⟩ := Option.map_eq_some_iff.mp hlast
  exact List.cons.inj (Prod.mk.inj hpiece).2

theorem tail (h : EndsWithBrace (c :: (more ++ rest)))
    (hlexeme : lexeme c (more ++ rest) = ⟨kind, more.length⟩) (hrest : rest ≠ []) :
    EndsWithBrace rest := by
  obtain ⟨hlast, hclosed⟩ := h
  rw [fragments_of_lexeme hlexeme] at hlast hclosed
  refine ⟨?_, fun piece hpiece => hclosed piece (List.mem_cons_of_mem _ hpiece)⟩
  cases rest with
  | nil => exact absurd rfl hrest
  | cons d rest =>
      rw [fragments] at hlast ⊢
      rwa [List.getLast?_cons_cons] at hlast

-- What ends in front of the text also does if more follows behind the brace.
theorem endsBefore_append {piece : List Char} (h : EndsWithBrace text)
    (hends : endsBefore text piece = true) (next : List Char) :
    endsBefore (text ++ next) piece = true := by
  match text with
  | [] => exact absurd rfl h.ne_nil
  | [d] =>
    have hextra : (lexeme d []).extra = 0 := Nat.le_zero.mp (lexeme_extra_le d [])
    have hlexeme : lexeme d [] = ⟨(lexeme d []).kind, ([] : List Char).length⟩ := by
      rw [List.length_nil, ← hextra]
    obtain ⟨rfl, -⟩ := h.eq_brace hlexeme
    rwa [List.singleton_append, endsBefore_rBrace]
  | d :: e :: text =>
    have hsame := @endsBefore_take (d :: e :: text) (d :: e :: text ++ next) rfl
    rwa [hsame]

-- The tokens of such a text, and those of what follows.
theorem items_append (h : EndsWithBrace text) (start : Nat) (lead next : List Char) :
    ∃ place, (scanFrom lexeme .eof start lead (text ++ next)).items =
      (scanFrom lexeme .eof start lead text).items ++
        (scanFrom lexeme .eof place [] next).items := by
  induction text using fragments_induction generalizing start lead with
  | nil => exact absurd rfl h.ne_nil
  | cons c more rest kind hlexeme ih =>
      by_cases hrest : rest = []
      · subst hrest
        rw [List.append_nil] at hlexeme h ⊢
        obtain ⟨rfl, rfl⟩ := h.eq_brace hlexeme
        refine ⟨start + Text.byteLength ['}'], ?_⟩
        have hbrace (after : List Char) :
            lexeme '}' ([] ++ after) = ⟨some .rBrace, ([] : List Char).length⟩ := rfl
        have htext := @scanFrom_whole _ lexeme .eof '}' [] next _ (hbrace next) start lead
        have hfront := @scanFrom_whole _ lexeme .eof '}' [] [] _ (hbrace []) start lead
        rw [List.nil_append] at htext hfront
        rw [List.cons_append, List.nil_append, htext, hfront, scanFrom]
        rfl
      · have hmoved : isBlank c = false →
            lexeme c (more ++ (rest ++ next)) = ⟨kind, more.length⟩ := by
          intro hblank
          have hclosed : closedLiteral (c :: more) = true :=
            h.closed _ (by rw [fragments_of_lexeme hlexeme]; exact List.mem_cons_self)
          exact lexeme_moved hlexeme hblank
            ((h.tail hlexeme hrest).endsBefore_append (endsBefore_of_lexeme hlexeme hclosed) next)
        have hothers := ih (h.tail hlexeme hrest)
        rw [List.cons_append, List.append_assoc]
        by_cases hblank : isBlank c = true
        · obtain ⟨rfl, hblanks⟩ := blanks_of_lexeme hlexeme hblank
          rw [← List.cons_append, ← List.cons_append, scanFrom_blanks hblanks,
            scanFrom_blanks hblanks]
          exact hothers _ _
        · have hsame := hmoved (by simpa using hblank)
          cases kind with
          | none =>
              rw [scanFrom_skip hsame, scanFrom_skip hlexeme, List.take_left, List.take_left,
                List.drop_left, List.drop_left]
              exact hothers _ _
          | some kind =>
              obtain ⟨place, hitems⟩ := hothers (start + Text.byteLength (c :: more)) []
              refine ⟨place, ?_⟩
              rw [scanFrom_whole hsame, scanFrom_whole hlexeme]
              exact congrArg (List.cons _) hitems

theorem scan_append (h : EndsWithBrace text) (next : List Char) :
    ∃ distance, (scan (text ++ next)).items =
      (scan text).items ++ (scan next).items.map (Token.moved distance) := by
  obtain ⟨distance, hitems⟩ := h.items_append 0 [] next
  refine ⟨distance, ?_⟩
  have hmoved := @scanFrom_moved _ lexeme .eof distance 0 [] next
  rw [Tokens.toList, Tokens.toList, List.map_append, List.map_singleton, Nat.zero_add] at hmoved
  rw [scan, scan, scan, Reflection.scan, Reflection.scan, Reflection.scan, hitems,
    (List.append_inj' hmoved rfl).1]

end EndsWithBrace

end Pieces

-- The text of a function definition, from its first token to the brace that ends its body.
structure FunctionText (function : FunctionDefinition) (front : List Char) : Prop
    extends EndsWithBrace front where
  tokens : (scan front).items = function.tokens
  -- an elaborated type in front of the name is not a declaration of that type
  plain : function.startsType = false

namespace FunctionText

variable {function : FunctionDefinition} {front : List Char}

-- The declarations of a text are read behind the definition as on their own.
theorem readAlike (h : FunctionText function front)
    (hpassed : (function.passed.parameters && !function.passed.equals) = true)
    (text : List Char) : ReadAlike (front ++ text) text := by
  obtain ⟨distance, hitems⟩ := h.scan_append text
  rw [h.tokens] at hitems
  have hbehind := @FunctionDefinition.scope_behind (scan (front ++ text)).ending function .tolerant
    false h.plain hpassed ((scan text).items.map (Token.moved distance))
  obtain ⟨houtcome, hrecovered⟩ := (SameTokens.moved distance (scan text).items).scope
    (scan text).ending (scan (front ++ text)).ending false
  refine readAlike_of_scope ?_ ?_
  · rw [hitems, hbehind.outcome_eq, houtcome]
  · rw [hitems, hbehind.recovered, List.nil_append, hrecovered]

def structText : List Char := "struct X \x7b\x7d;".toList

-- Without a body in front of it, a struct is skipped to its semicolon.
theorem skipDeclaration_struct {ending keyword name opening closing semicolon : Token}
    {passed : Passed} (hkeyword : keyword.kind = .structKw) (hname : name.kind = .ident)
    (hopening : opening.kind = .lBrace) (hclosing : closing.kind = .rBrace)
    (hsemicolon : semicolon.kind = .semicolon)
    (hpassed : (passed.parameters && !passed.equals) = false) :
    skipDeclaration ending passed [keyword, name, opening, closing, semicolon] = .done () [] := by
  have hbraces : WholeGroup .lBrace [opening, closing] := by
    have hgroup := @WholeGroup.delimiters opening closing []
      ⟨by rw [hopening]; rfl, by simp [hopening], by rw [hopening, hclosing]; rfl⟩ .nil
    rwa [hopening] at hgroup
  rw [skipDeclaration_plain (by rw [hkeyword]; rfl) (by simp [hkeyword]) (by simp [hkeyword])
      (by simp [hkeyword]),
    skipDeclaration_plain (by rw [hname]; rfl) (by simp [hname]) (by simp [hname])
      (by simp [hname])]
  refine (skipDeclaration_braces hbraces [semicolon]).trans ?_
  rw [hpassed, if_neg Bool.false_ne_true, skipDeclaration_cons, hsemicolon]

theorem items_structText : (scan structText).items =
    [⟨.structKw, 0, [], "struct".toList⟩, ⟨.ident, 7, [' '], ['X']⟩, ⟨.lBrace, 9, [' '], ['{']⟩,
      ⟨.rBrace, 10, [], ['}']⟩, ⟨.semicolon, 11, [], [';']⟩] := by
  decide +kernel

-- A struct behind the definition is lost if the braces are not taken for a body.
theorem not_readAlike (h : FunctionText function front)
    (hpassed : (function.passed.parameters && !function.passed.equals) = false) :
    ¬ReadAlike (front ++ structText) structText := by
  rintro ⟨parsed, second, hparsed, hsecond, hentities, -⟩
  obtain ⟨distance, hitems⟩ := h.scan_append structText
  rw [h.tokens] at hitems
  have hstruct : skipDeclaration (scan (front ++ structText)).ending function.passed
      ((scan structText).items.map (Token.moved distance)) = .done () [] := by
    rw [items_structText]
    exact skipDeclaration_struct rfl rfl rfl rfl rfl hpassed
  have hpast := function.scope_past .tolerant false h.plain hpassed hstruct
  have hnone : (scope .tolerant (scan (front ++ structText)).ending false
      (scan (front ++ structText)).items).outcome = .ok [] := by
    rw [hitems]
    refine hpast.outcome_eq.trans ?_
    rw [scope_nil]
  have hone : (parse .tolerant structText).toOption.map (·.tree.entities.length) = some 1 := by
    decide +kernel
  rw [parse_of_ok hnone] at hparsed
  obtain rfl := Except.ok.inj hparsed
  rw [hsecond] at hone
  have hlength : second.tree.entities.length = 1 := Option.some.inj hone
  have hsame := congrArg List.length hentities
  rw [List.length_map, List.length_map, hlength] at hsame
  cases hsame

-- Whatever follows, it is read as on its own, exactly if no `=` stands in the definition outside of
-- groups, and no braces stand around the last member initializer.
theorem readAlike_iff (h : FunctionText function front) :
    (∀ text, ReadAlike (front ++ text) text) ↔
      function.hasEquals = false ∧ function.endsBraced = false := by
  have hpassed : (function.passed.parameters && !function.passed.equals) = true ↔
      function.hasEquals = false ∧ function.endsBraced = false := by
    rw [function.passed_eq]
    simp
  rw [← hpassed]
  refine ⟨fun hall => ?_, h.readAlike⟩
  by_contra hlost
  exact h.not_readAlike (Bool.eq_false_iff.mpr hlost) (hall structText)

section Examples

theorem nested_of_plain {tokens : List Token}
    (h : tokens.all fun token => !token.kind.isOpen && !token.kind.isClose) : Nested tokens := by
  induction tokens with
  | nil => exact .nil
  | cons token rest ih =>
      rw [List.all_cons, Bool.and_eq_true, Bool.and_eq_true, Bool.not_eq_true',
        Bool.not_eq_true'] at h
      exact .token h.1.1 h.1.2 (ih h.2)

theorem wholeGroup_of_plain {kind : TokenKind} {opening closing : Token} {inner : List Token}
    (hopening : opening.kind = kind) (hopen : kind.isOpen = true)
    (hplain : (kind != .attrOpen) = true) (hclosing : closing.kind = closerOf kind)
    (hinner : inner.all fun token => !token.kind.isOpen && !token.kind.isClose) :
    WholeGroup kind (opening :: (inner ++ [closing])) := by
  subst hopening
  exact .delimiters ⟨hopen, by simpa using hplain, hclosing⟩ (nested_of_plain hinner)

theorem kind_of_none {kind : TokenKind} : ∀ token ∈ (none : Option Token), token.kind = kind :=
  fun _ h => absurd h (Option.not_mem_none _)

def initializingText : List Char := "X::X(A a) : b\x7ba\x7d, c(1) \x7b\x7d".toList

-- A constructor whose first member initializer is one in braces.
def initializing : FunctionDefinition where
  first := ⟨.ident, 0, [], ['X']⟩
  head := [.single ⟨.colonColon, 1, [], [':', ':']⟩ rfl rfl (by decide) (by decide),
    .single ⟨.ident, 3, [], ['X']⟩ rfl rfl (by decide) (by decide)]
  parameters := ⟨.lParen, 4, [], ['(']⟩ ::
    ([⟨.ident, 5, [], ['A']⟩, ⟨.ident, 7, [' '], ['a']⟩] ++ [⟨.rParen, 8, [], [')']⟩])
  qualifiers := []
  initializers :=
    [{ separator := ⟨.colon, 10, [' '], [':']⟩
       name := [.single ⟨.ident, 12, [' '], ['b']⟩ rfl rfl (by decide) (by decide)]
       kind := .lBrace
       group := ⟨.lBrace, 13, [], ['{']⟩ :: ([⟨.ident, 14, [], ['a']⟩] ++
        [⟨.rBrace, 15, [], ['}']⟩])
       expansion := none
       isSeparator := .inl rfl
       isGroup := wholeGroup_of_plain rfl rfl rfl rfl rfl
       isInitializer := .inr rfl
       isExpansion := kind_of_none },
     { separator := ⟨.comma, 16, [], [',']⟩
       name := [.single ⟨.ident, 18, [' '], ['c']⟩ rfl rfl (by decide) (by decide)]
       kind := .lParen
       group := ⟨.lParen, 19, [], ['(']⟩ :: ([⟨.number, 20, [], ['1']⟩] ++
        [⟨.rParen, 21, [], [')']⟩])
       expansion := none
       isSeparator := .inr rfl
       isGroup := wholeGroup_of_plain rfl rfl rfl rfl rfl
       isInitializer := .inl rfl
       isExpansion := kind_of_none }]
  body := ⟨.lBrace, 23, [' '], ['{']⟩ :: ([] ++ [⟨.rBrace, 24, [], ['}']⟩])
  isFirst := by decide
  isParameters := wholeGroup_of_plain rfl rfl rfl rfl rfl
  isBody := wholeGroup_of_plain rfl rfl rfl rfl rfl

-- Braces of an initializer that is not the last one do no harm.
theorem readAlike_initializing : FunctionText initializing initializingText ∧
    ∀ text, ReadAlike (initializingText ++ text) text := by
  have htext : FunctionText initializing initializingText :=
    ⟨⟨by decide +kernel, by decide +kernel⟩, by decide +kernel, by decide +kernel⟩
  exact ⟨htext, htext.readAlike_iff.mpr ⟨by decide, by decide⟩⟩

def comparisonText : List Char := "bool operator==(A a, A b) \x7b return true; \x7d".toList

-- A function whose name is an operator with a `=`.
def comparison : FunctionDefinition where
  first := ⟨.ident, 0, [], "bool".toList⟩
  head := [.single ⟨.operatorKw, 5, [' '], "operator".toList⟩ rfl rfl (by decide) (by decide),
    .single ⟨.eq, 13, [], ['=']⟩ rfl rfl (by decide) (by decide),
    .single ⟨.eq, 14, [], ['=']⟩ rfl rfl (by decide) (by decide)]
  parameters := ⟨.lParen, 15, [], ['(']⟩ ::
    ([⟨.ident, 16, [], ['A']⟩, ⟨.ident, 18, [' '], ['a']⟩, ⟨.comma, 19, [], [',']⟩,
      ⟨.ident, 21, [' '], ['A']⟩, ⟨.ident, 23, [' '], ['b']⟩] ++ [⟨.rParen, 24, [], [')']⟩])
  qualifiers := []
  initializers := []
  body := ⟨.lBrace, 26, [' '], ['{']⟩ ::
    ([⟨.ident, 28, [' '], "return".toList⟩, ⟨.ident, 35, [' '], "true".toList⟩,
      ⟨.semicolon, 39, [], [';']⟩] ++ [⟨.rBrace, 41, [' '], ['}']⟩])
  isFirst := by decide
  isParameters := wholeGroup_of_plain rfl rfl rfl rfl rfl
  isBody := wholeGroup_of_plain rfl rfl rfl rfl rfl

-- The struct behind such a function is lost.
theorem not_readAlike_comparison : FunctionText comparison comparisonText ∧
    ¬ReadAlike (comparisonText ++ structText) structText := by
  have htext : FunctionText comparison comparisonText :=
    ⟨⟨by decide +kernel, by decide +kernel⟩, by decide +kernel, by decide +kernel⟩
  exact ⟨htext, htext.not_readAlike (by decide)⟩

end Examples

end FunctionText

end Reflection.Header
