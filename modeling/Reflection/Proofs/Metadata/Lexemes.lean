import Reflection.Proofs.Literals
import Reflection.Proofs.Metadata.QuotedItems

namespace Reflection.Metadata

open Lexical (isBlank isWordPart isNumberPart lexeme)

-- The tokens that have one spelling.
def symbols : List (TokenKind × List Char) :=
  [(.lParen, ['(']), (.rParen, [')']), (.lBrace, ['{']), (.rBrace, ['}']), (.lBracket, ['[']),
    (.rBracket, [']']), (.colonColon, [':', ':']), (.colon, [':']), (.comma, [',']), (.eq, ['='])]

-- The operators that have no kind of their own.
def operators : List Char :=
  ['-', '+', '*', '/', '%', '^', '|', '&', '!', '.', '?', '<', '>', '~', '#', '@']

-- What may stand between the quotes of a literal: a backslash takes the character behind it along.
inductive LiteralBody : List Char → Prop where
  | nil : LiteralBody []
  | plain {c : Char} {rest : List Char} (hquote : c ≠ '"') (hescape : c ≠ '\\')
      (hrest : LiteralBody rest) : LiteralBody (c :: rest)
  | pair {c : Char} {rest : List Char} (hfeed : c ≠ '\n') (hrest : LiteralBody rest) :
      LiteralBody ('\\' :: c :: rest)

-- How the tokens of each kind are spelled.
inductive Spelled : TokenKind → List Char → Prop where
  | symbol {kind : TokenKind} {text : List Char} (h : (kind, text) ∈ symbols) : Spelled kind text
  | string {body : List Char} (h : LiteralBody body) : Spelled .string ('"' :: (body ++ ['"']))
  | number {digit : Char} {more : List Char} (hdigit : digit.isDigit = true)
      (hmore : ∀ c ∈ more, isNumberPart c = true) : Spelled .number (digit :: more)
  | negative {digit : Char} {more : List Char} (hdigit : digit.isDigit = true)
      (hmore : ∀ c ∈ more, isNumberPart c = true) : Spelled .number ('-' :: digit :: more)
  | ident {text : List Char} (h : IsIdentifier text) : Spelled .ident text
  | punct {c : Char} (h : c ∈ operators) : Spelled .punct [c]

-- Would this token go on with the character behind it?
def goesOn (kind : TokenKind) (text : List Char) (next : Char) : Bool :=
  match kind with
  | .ident => isWordPart next
  | .number => isNumberPart next
  | .colon => next = ':'
  | .punct => text = ['-'] && next.isDigit
  | _ => false

-- The text, from the byte offset `start` on, is written with these tokens. Blanks may stand between
-- them, and have to where a token would go on into the next one.
inductive Written : Nat → List Token → List Char → Prop where
  | nil {start : Nat} {blanks : List Char} (hblanks : ∀ c ∈ blanks, isBlank c = true) :
      Written start [] blanks
  | cons {start : Nat} {kind : TokenKind} {lead text rest : List Char} {tokens : List Token}
      (hlead : ∀ c ∈ lead, isBlank c = true) (hspelled : Spelled kind text)
      (hend : rest.head?.any (goesOn kind text) = false)
      (hrest : Written (start + Text.byteLength lead + Text.byteLength text) tokens rest) :
      Written start (⟨kind, start + Text.byteLength lead, lead, text⟩ :: tokens)
        (lead ++ (text ++ rest))

section Lexeme

theorem literalElements_body {body : List Char} (h : LiteralBody body) (rest : List Char) :
    literalElements '"' true (body ++ '"' :: rest) = body.length := by
  induction h with
  | nil => simp [literalElements]
  | plain hquote hescape _ ih =>
      rw [List.cons_append, literalElements.eq_3 _ _ _ _ fun _ _ h _ => hescape h, ih]
      simp [hquote, hescape]
  | pair hfeed _ ih =>
      rw [List.cons_append, List.cons_append, literalElements, if_neg hfeed, ih]
      rfl

theorem lexeme_literal {body : List Char} (h : LiteralBody body) (rest : List Char) :
    lexeme '"' (body ++ '"' :: rest) = ⟨some .string, body.length + 1⟩ := by
  have hopen : lexeme '"' (body ++ '"' :: rest) =
      literalLexeme '"' true .string .error (body ++ '"' :: rest) := rfl
  rw [hopen, literalLexeme, literalElements_body h]
  simp

theorem isBlank_iff {c : Char} : isBlank c = true ↔ c ∈ [' ', '\t', '\r', '\n', '\x0c'] := by
  simp [isBlank, or_assoc]

-- The characters that a token may start with.
def IsVisible (c : Char) : Prop := 0x21 ≤ c.toNat ∧ c.toNat ≤ 0x7e

theorem IsVisible.not_blank {c : Char} (h : IsVisible c) : isBlank c = false := by
  rw [Bool.eq_false_iff, ne_eq, isBlank_iff]
  intro hmem
  fin_cases hmem <;> simp [IsVisible] at h

theorem IsVisible.not_text_blank {c : Char} (h : IsVisible c) : Text.isBlank c = false := by
  rw [Bool.eq_false_iff]
  intro hblank
  simp only [Text.isBlank, Text.blankRanges, List.any_cons, List.any_nil, Bool.or_false,
    Bool.or_eq_true, Bool.and_eq_true, decide_eq_true_eq] at hblank
  obtain ⟨hlow, hhigh⟩ := h
  omega

theorem toNat_of_isDigit {c : Char} (h : c.isDigit = true) : 48 ≤ c.toNat ∧ c.toNat ≤ 57 := by
  simpa [Char.isDigit, UInt32.le_iff_toNat_le] using h

theorem toNat_of_isAlpha {c : Char} (h : c.isAlpha = true) :
    (65 ≤ c.toNat ∧ c.toNat ≤ 90) ∨ (97 ≤ c.toNat ∧ c.toNat ≤ 122) := by
  simpa [Char.isAlpha, Char.isUpper, Char.isLower, UInt32.le_iff_toNat_le] using h

theorem isVisible_digit {c : Char} (h : c.isDigit = true) : IsVisible c := by
  have hcode := toNat_of_isDigit h
  constructor <;> omega

theorem isVisible_word {c : Char} (h : c.isAlpha = true ∨ c = '_') : IsVisible c := by
  obtain hletter | rfl := h
  · have hcode := toNat_of_isAlpha hletter
    constructor <;> omega
  · constructor <;> decide

theorem not_word_of_isDigit {c : Char} (h : c.isDigit = true) :
    (c.isAlpha || c = '_') = false := by
  have hcode := toNat_of_isDigit h
  rw [Bool.eq_false_iff]
  intro hword
  rw [Bool.or_eq_true, decide_eq_true_eq] at hword
  obtain hletter | rfl := hword
  · have hrange := toNat_of_isAlpha hletter
    omega
  · simp at hcode

theorem lexeme_digit {c : Char} (h : c.isDigit = true) (rest : List Char) :
    lexeme c rest = ⟨some .number, (rest.takeWhile isNumberPart).length⟩ := by
  unfold lexeme
  rw [(isVisible_digit h).not_blank, if_neg (by decide), not_word_of_isDigit h,
    if_neg (by decide), if_pos h]
  simp [Lexical.number]

theorem lexeme_minus_digit {c : Char} (h : c.isDigit = true) (rest : List Char) :
    lexeme '-' (c :: rest) = ⟨some .number, (rest.takeWhile isNumberPart).length + 1⟩ := by
  unfold lexeme
  rw [if_neg (by decide), if_neg (by decide), if_neg (by decide), if_pos (by simp [h])]
  simp [Lexical.number, Nat.add_comm]

theorem lexeme_minus {rest : List Char} (h : rest.head?.any Char.isDigit = false) :
    lexeme '-' rest = ⟨some .punct, 0⟩ := by
  unfold lexeme
  rw [if_neg (by decide), if_neg (by decide), if_neg (by decide), if_neg (by simp [h])]
  cases rest <;> rfl

theorem lexeme_colon {rest : List Char} (h : rest.head?.any (goesOn .colon [':']) = false) :
    lexeme ':' rest = ⟨some .colon, 0⟩ := by
  cases rest with
  | nil => rfl
  | cons c rest =>
      have hc : c ≠ ':' := by simpa [goesOn] using h
      unfold lexeme
      rw [if_neg (by decide), if_neg (by decide), if_neg (by decide), if_neg (by simp)]
      split <;> first
        | contradiction
        | rfl
        | simp_all

theorem lexeme_operator {c : Char} (h : c ∈ operators) {rest : List Char}
    (hend : rest.head?.any (goesOn .punct [c]) = false) : lexeme c rest = ⟨some .punct, 0⟩ := by
  by_cases hminus : c = '-'
  · subst hminus
    have hdigit : goesOn .punct ['-'] = Char.isDigit := by
      funext next
      simp [goesOn]
    exact lexeme_minus (hdigit ▸ hend)
  · fin_cases h <;> first
      | contradiction
      | rfl

theorem lexeme_symbol {kind : TokenKind} {c : Char} {more : List Char}
    (h : (kind, c :: more) ∈ symbols) {rest : List Char}
    (hend : rest.head?.any (goesOn kind (c :: more)) = false) :
    lexeme c (more ++ rest) = ⟨some kind, more.length⟩ := by
  simp only [symbols, List.mem_cons, Prod.mk.injEq, List.cons.injEq, List.not_mem_nil,
    or_false] at h
  rcases h with ⟨rfl, rfl, rfl⟩ | ⟨rfl, rfl, rfl⟩ | ⟨rfl, rfl, rfl⟩ | ⟨rfl, rfl, rfl⟩ |
    ⟨rfl, rfl, rfl⟩ | ⟨rfl, rfl, rfl⟩ | ⟨rfl, rfl, rfl⟩ | ⟨rfl, rfl, rfl⟩ | ⟨rfl, rfl, rfl⟩ |
    ⟨rfl, rfl, rfl⟩
  case inr.inr.inr.inr.inr.inr.inr.inl => exact lexeme_colon hend
  all_goals rfl

-- A token ends where it was written to end.
theorem lexeme_spelled {kind : TokenKind} {c : Char} {more rest : List Char}
    (h : Spelled kind (c :: more)) (hend : rest.head?.any (goesOn kind (c :: more)) = false) :
    lexeme c (more ++ rest) = ⟨some kind, more.length⟩ := by
  generalize htext : c :: more = text at h hend
  cases h with
  | symbol h =>
      subst htext
      exact lexeme_symbol h hend
  | string h =>
      obtain ⟨rfl, rfl⟩ := List.cons.inj htext
      rw [List.append_assoc, List.singleton_append, lexeme_literal h]
      simp
  | number hdigit hmore =>
      obtain ⟨rfl, rfl⟩ := List.cons.inj htext
      rw [lexeme_digit hdigit, takeWhile_of_stop hmore hend]
  | negative hdigit hmore =>
      obtain ⟨rfl, rfl⟩ := List.cons.inj htext
      rw [List.cons_append, lexeme_minus_digit hdigit, takeWhile_of_stop hmore hend]
      rfl
  | ident h =>
      obtain ⟨first, others, rfl, hfirst, hothers⟩ := h
      obtain ⟨rfl, rfl⟩ := List.cons.inj htext
      rw [lexeme_word hfirst, takeWhile_of_stop hothers hend]
  | punct h =>
      obtain ⟨rfl, rfl⟩ := List.cons.inj htext
      exact lexeme_operator h hend

theorem Spelled.exists_cons {kind : TokenKind} {text : List Char} (h : Spelled kind text) :
    ∃ c more, text = c :: more ∧ IsVisible c := by
  cases h with
  | symbol h =>
      simp only [symbols, List.mem_cons, Prod.mk.injEq, List.not_mem_nil, or_false] at h
      rcases h with ⟨-, rfl⟩ | ⟨-, rfl⟩ | ⟨-, rfl⟩ | ⟨-, rfl⟩ | ⟨-, rfl⟩ | ⟨-, rfl⟩ | ⟨-, rfl⟩ |
        ⟨-, rfl⟩ | ⟨-, rfl⟩ | ⟨-, rfl⟩
      all_goals exact ⟨_, _, rfl, by decide, by decide⟩
  | string h => exact ⟨_, _, rfl, by decide, by decide⟩
  | number hdigit _ => exact ⟨_, _, rfl, isVisible_digit hdigit⟩
  | negative hdigit _ => exact ⟨_, _, rfl, by decide, by decide⟩
  | ident h =>
      obtain ⟨first, more, htext, hfirst, _⟩ := h
      exact ⟨first, more, htext, isVisible_word hfirst⟩
  | @punct c h =>
      refine ⟨c, [], rfl, ?_⟩
      fin_cases h <;> exact ⟨by decide, by decide⟩

end Lexeme

section Scan

theorem scanFrom_lead {lead : List Char} (hlead : ∀ c ∈ lead, isBlank c = true) {rest : List Char}
    (hrest : rest.head?.any isBlank = false) (start : Nat) :
    scanFrom lexeme .eof start [] (lead ++ rest) =
      scanFrom lexeme .eof (start + Text.byteLength lead) lead rest := by
  cases lead with
  | nil => rfl
  | cons c lead =>
      rw [List.forall_mem_cons] at hlead
      have hblank : lexeme c (lead ++ rest) = ⟨none, lead.length⟩ := by
        unfold lexeme
        rw [if_pos hlead.1, takeWhile_of_stop hlead.2 hrest]
      rw [List.cons_append, scanFrom_skip hblank, List.take_left, List.drop_left, List.nil_append]

-- The tokens of a text are those that it was written with.
theorem Written.items {start : Nat} {tokens : List Token} {text : List Char}
    (h : Written start tokens text) : (scanFrom lexeme .eof start [] text).items = tokens := by
  induction h with
  | @nil start blanks hblanks =>
      rw [← List.append_nil blanks, scanFrom_lead hblanks rfl, scanFrom]
  | @cons start kind lead text rest tokens hlead hspelled hend _ ih =>
      obtain ⟨c, more, rfl, hvisible⟩ := hspelled.exists_cons
      rw [scanFrom_lead hlead (by simpa using hvisible.not_blank), List.cons_append,
        scanFrom_whole (lexeme_spelled hspelled hend), Tokens.cons, ih]

end Scan

section Scanned

-- A piece of text that is neither blanks nor an error is a token in its spelling, which ends there.
structure Lexed (kind : TokenKind) (text rest : List Char) : Prop where
  spelled : Spelled kind text
  ends : rest.head?.any (goesOn kind text) = false

theorem literalBody_take (rest : List Char) :
    LiteralBody (rest.take (literalElements '"' true rest)) := by
  fun_induction literalElements '"' true rest with
  | case1 => exact .nil
  | case2 => exact .nil
  | case3 c rest hfeed ih => exact .pair hfeed ih
  | case4 => exact .nil
  | case5 c rest hpair hc ih =>
      simp only [Bool.not_true, Bool.and_false, Bool.or_false, Bool.or_eq_true,
        decide_eq_true_eq, not_or] at hc
      exact .plain hc.1 hc.2 ih

theorem lexed_literal {rest : List Char}
    (h : (literalLexeme '"' true TokenKind.string .error rest).kind ≠ some .error) :
    ∃ extra, literalLexeme '"' true TokenKind.string .error rest = ⟨some .string, extra⟩ ∧
      Lexed .string ('"' :: rest.take extra) (rest.drop extra) := by
  unfold literalLexeme at h ⊢
  dsimp only at h ⊢
  split at h
  · next hclosed =>
    rw [if_pos hclosed]
    refine ⟨_, rfl, ?_, ?_⟩
    · obtain ⟨after, hafter⟩ := List.head?_eq_some_iff.mp hclosed
      have htake : rest.take (literalElements '"' true rest + 1) =
          rest.take (literalElements '"' true rest) ++ ['"'] := by
        rw [List.take_add, hafter]
        rfl
      rw [htake]
      exact .string (literalBody_take rest)
    · cases (rest.drop _).head? <;> rfl
  · exact absurd rfl h

theorem any_goesOn_false {kind : TokenKind} {text : List Char}
    (h : goesOn kind text = fun _ => false) (next : Option Char) :
    next.any (goesOn kind text) = false := by
  cases next <;> simp [h]

theorem lexed_symbol {kind : TokenKind} {c : Char} {more rest : List Char}
    (h : (kind, c :: more) ∈ symbols) (hend : rest.head?.any (goesOn kind (c :: more)) = false) :
    Lexed kind (c :: more) rest := ⟨.symbol h, hend⟩

theorem lexed_operator {c : Char} {rest : List Char} (h : c ∈ operators)
    (hdigit : ¬(c = '-' && rest.head?.any Char.isDigit) = true) : Lexed .punct [c] rest := by
  refine ⟨.punct h, ?_⟩
  cases rest with
  | nil => rfl
  | cons d rest => simpa [goesOn] using hdigit

theorem lexed_lexeme {c : Char} {rest : List Char} {kind : TokenKind} {extra : Nat}
    (h : lexeme c rest = ⟨some kind, extra⟩) (hkind : kind ≠ .error) :
    Lexed kind (c :: rest.take extra) (rest.drop extra) := by
  unfold lexeme at h
  split at h
  · cases h
  split at h
  · next hword =>
    cases h
    refine ⟨.ident ⟨c, _, rfl, by simpa using hword, ?_⟩, head?_drop_takeWhile _ _⟩
    rw [take_takeWhile]
    exact fun d hd => List.mem_takeWhile_imp hd
  split at h
  · next hdigit =>
    simp only [Lexical.number, List.drop_zero, Nat.zero_add] at h
    cases h
    refine ⟨.number hdigit ?_, head?_drop_takeWhile _ _⟩
    rw [take_takeWhile]
    exact fun d hd => List.mem_takeWhile_imp hd
  split at h
  · next hnegative =>
    rw [Bool.and_eq_true, decide_eq_true_eq] at hnegative
    obtain ⟨rfl, hdigit⟩ := hnegative
    cases rest with
    | nil => cases hdigit
    | cons d rest =>
        simp only [Lexical.number, List.drop_succ_cons, List.drop_zero] at h
        cases h
        rw [Nat.add_comm, List.take_succ_cons, List.drop_succ_cons]
        refine ⟨.negative (by simpa using hdigit) ?_, head?_drop_takeWhile _ _⟩
        rw [take_takeWhile]
        exact fun d hd => List.mem_takeWhile_imp hd
  next hnegative =>
  split at h
  · have hliteral : (literalLexeme '"' true TokenKind.string .error rest).kind ≠ some .error := by
      rw [h]
      simpa using hkind
    obtain ⟨extra, hsame, hlexed⟩ := lexed_literal hliteral
    rw [h] at hsame
    cases hsame
    exact hlexed
  · cases h
    exact lexed_symbol (by simp [symbols]) (any_goesOn_false rfl _)
  · next hcolon =>
    cases h
    refine lexed_symbol (by simp [symbols]) ?_
    cases rest with
    | nil => rfl
    | cons d rest => simpa [goesOn] using fun heq => hcolon rest (by rw [heq])
  iterate 8
    · cases h
      exact lexed_symbol (by simp [symbols]) (any_goesOn_false rfl _)
  · split at h
    · next hoperator =>
      cases h
      exact lexed_operator (by simpa [operators] using hoperator) hnegative
    · cases h
      exact absurd rfl hkind

theorem blank_of_lexeme {c : Char} {rest : List Char} {extra : Nat}
    (h : lexeme c rest = ⟨none, extra⟩) : ∀ d ∈ c :: rest.take extra, isBlank d = true := by
  unfold lexeme at h
  split at h
  · next hblank =>
    cases h
    rw [take_takeWhile, List.forall_mem_cons]
    exact ⟨hblank, fun d hd => List.mem_takeWhile_imp hd⟩
  split at h
  · cases h
  split at h
  · cases h
  split at h
  · cases h
  split at h
  · unfold literalLexeme at h
    dsimp only at h
    split at h <;> cases h
  all_goals first
    | cases h
    | (split at h <;> cases h)

-- By induction on the pieces: blanks join the lead of the token behind them.
theorem written_scanFrom {first start : Nat} {lead text : List Char}
    (hlead : ∀ c ∈ lead, isBlank c = true) (hstart : first + Text.byteLength lead = start)
    (h : ∀ token ∈ (scanFrom lexeme .eof start lead text).items, token.kind ≠ .error) :
    Written first (scanFrom lexeme .eof start lead text).items (lead ++ text) := by
  fun_induction scanFrom lexeme TokenKind.eof start lead text generalizing first with
  | case1 start lead =>
      rw [List.append_nil]
      exact .nil hlead
  | case2 start lead c rest piece text next hkind =>
      rename_i ih
      have hpiece : lexeme c rest = ⟨none, piece.extra⟩ := by rw [← hkind]
      have hblank : ∀ d ∈ lead ++ text, isBlank d = true :=
        List.forall_mem_append.mpr ⟨hlead, blank_of_lexeme hpiece⟩
      have hnext : first + Text.byteLength (lead ++ text) = next := by
        rw [Text.byteLength_append, ← Nat.add_assoc, hstart]
      have hwritten := ih hblank hnext h
      rwa [List.append_assoc, List.cons_append, List.take_append_drop] at hwritten
  | case3 start lead c rest piece text next kind hkind =>
      rename_i ih
      have hpiece : lexeme c rest = ⟨some kind, piece.extra⟩ := by rw [← hkind]
      rw [Tokens.cons, List.forall_mem_cons] at h
      have hlexed : Lexed kind text (rest.drop piece.extra) := lexed_lexeme hpiece h.1
      have hnext : next + Text.byteLength [] = next := rfl
      have hrest := ih (by simp) hnext h.2
      subst hstart
      have hwritten := Written.cons hlead hlexed.spelled hlexed.ends hrest
      rwa [List.cons_append, List.take_append_drop] at hwritten

-- A text that can be cut into tokens is written with them.
theorem written_scan {text : List Char} (h : ∀ token ∈ (scan text).items, token.kind ≠ .error) :
    Written 0 (scan text).items text :=
  @written_scanFrom 0 0 [] text (by simp) rfl h

end Scanned

end Reflection.Metadata
