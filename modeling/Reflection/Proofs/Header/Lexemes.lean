import Mathlib.Data.List.TakeWhile
import Mathlib.Tactic.FinCases
import Reflection.Header.Token
import Reflection.Proofs.Literals
import Reflection.Proofs.Scanning

namespace Reflection

theorem head?_drop_takeWhile_ne (c : Char) (text : List Char) :
    (text.drop (text.takeWhile (· ≠ c)).length).head? = some c ↔ c ∈ text := by
  induction text with
  | nil => simp
  | cons d text ih =>
      by_cases hd : d = c
      · simp [hd]
      · simpa [hd, Ne.symm hd] using ih

theorem Text.indexOf?_le (wanted : List Char) {text : List Char} {index : Nat}
    (h : Text.indexOf? wanted text = some index) : index ≤ text.length := by
  fun_induction Text.indexOf? wanted text generalizing index with
  | case1 => simp_all
  | case2 => simp_all
  | case3 =>
      cases h
      exact Nat.zero_le _
  | case4 c rest hstart ih =>
      obtain ⟨inner, hinner, rfl⟩ := Option.map_eq_some_iff.mp h
      simpa using ih hinner

end Reflection

namespace Reflection.Header.Lexical

theorem isBlank_iff {c : Char} : isBlank c = true ↔ c ∈ [' ', '\t', '\r', '\n', '\x0c'] := by
  simp [isBlank, or_assoc]

theorem isLetter_of_isBlank {c : Char} (h : isBlank c = true) : isLetter c = false := by
  rw [isBlank_iff] at h
  fin_cases h <;> rfl

theorem lexeme_blank {c : Char} (h : isBlank c = true) (rest : List Char) :
    lexeme c rest = ⟨none, (rest.takeWhile isBlank).length⟩ := by
  unfold lexeme
  rw [if_pos h]

theorem lexeme_letter {c : Char} (h : isLetter c = true) (rest : List Char) :
    lexeme c rest =
      ⟨some (wordKind (c :: rest.takeWhile fun d => isLetter d || d.isDigit)),
        (rest.takeWhile fun d => isLetter d || d.isDigit).length⟩ := by
  have hblank : ¬isBlank c = true := fun hblank => by
    rw [isLetter_of_isBlank hblank] at h
    cases h
  unfold lexeme
  rw [if_neg hblank, if_pos h]

theorem lexeme_digit {c : Char} (hblank : isBlank c = false) (hletter : isLetter c = false)
    (h : c.isDigit = true) (rest : List Char) :
    lexeme c rest = ⟨some .number, (rest.takeWhile isNumberPart).length⟩ := by
  unfold lexeme
  rw [hblank, hletter, if_neg (by decide), if_neg (by decide), if_pos h]

-- The characters that a literal, skipped text or a token of punctuation of its own kind may start
-- with; the first ones look at what follows them.
def symbols : List Char :=
  ['[', ':', '.', '-', '/', '#', '"', '\'', '(', ')', '{', '}', ']', '<', '>', ';', ',', '=', '~',
    '*', '&']

theorem lexeme_plain {c : Char} (hblank : isBlank c = false) (hletter : isLetter c = false)
    (hdigit : c.isDigit = false) (hsymbol : c ∉ symbols) (rest : List Char) :
    lexeme c rest =
      if "-+/%^|!.?".toList.contains c then ⟨some .punct, 0⟩ else ⟨some .error, 0⟩ := by
  unfold lexeme
  rw [hblank, hletter, hdigit, if_neg (by decide), if_neg (by decide), if_neg (by decide)]
  split <;> first
    | rfl
    | exact absurd (by decide) hsymbol

-- The tokens that a character makes with the one behind it and by itself.
def pairs : List (Char × Char × TokenKind × TokenKind) :=
  [('[', '[', .attrOpen, .lBracket), (':', ':', .colonColon, .colon), ('-', '>', .arrow, .punct)]

theorem lexeme_pair {c d : Char} {joined alone : TokenKind} (h : (c, d, joined, alone) ∈ pairs)
    (rest : List Char) :
    lexeme c rest = if rest.head? = some d then ⟨some joined, 1⟩ else ⟨some alone, 0⟩ := by
  simp only [pairs, List.mem_cons, Prod.mk.injEq, List.not_mem_nil, or_false] at h
  by_cases hjoined : rest.head? = some d
  · obtain ⟨tail, rfl⟩ := List.head?_eq_some_iff.mp hjoined
    rcases h with ⟨rfl, rfl, rfl, rfl⟩ | ⟨rfl, rfl, rfl, rfl⟩ | ⟨rfl, rfl, rfl, rfl⟩ <;> rfl
  · rw [if_neg hjoined]
    rcases h with ⟨rfl, rfl, rfl, rfl⟩ | ⟨rfl, rfl, rfl, rfl⟩ | ⟨rfl, rfl, rfl, rfl⟩
    all_goals
      unfold lexeme
      rw [if_neg (by decide), if_neg (by decide), if_neg (by decide)]
      split <;> first
        | contradiction
        | rfl

theorem lexeme_dot (rest : List Char) :
    lexeme '.' rest =
      if rest.take 2 = ['.', '.'] then ⟨some .ellipsis, 2⟩ else ⟨some .punct, 0⟩ := by
  by_cases hdots : rest.take 2 = ['.', '.']
  · rw [if_pos hdots, ← List.take_append_drop 2 rest, hdots]
    rfl
  · rw [if_neg hdots]
    unfold lexeme
    rw [if_neg (by decide), if_neg (by decide), if_neg (by decide)]
    split <;> first
      | contradiction
      | rfl

-- A closing bracket ends every token but a literal, and all skipped text but comments and
-- preprocessor lines.
theorem lexeme_append {c : Char} (hc : c ∉ ['/', '#', '"', '\'']) (more after : List Char) :
    lexeme c (more ++ ']' :: after) = lexeme c more := by
  have htake {p : Char → Bool} (h : p ']' = false) := takeWhile_append_stop h more after
  by_cases hblank : isBlank c = true
  · rw [lexeme_blank hblank, lexeme_blank hblank, htake (by decide)]
  by_cases hletter : isLetter c = true
  · rw [lexeme_letter hletter, lexeme_letter hletter, htake (by decide)]
  rw [Bool.not_eq_true] at hblank hletter
  by_cases hdigit : c.isDigit = true
  · rw [lexeme_digit hblank hletter hdigit, lexeme_digit hblank hletter hdigit, htake (by decide)]
  by_cases hsymbol : c ∈ symbols
  · have hpair {d : Char} {joined alone : TokenKind} (h : (c, d, joined, alone) ∈ pairs)
        (hd : d ≠ ']') : lexeme c (more ++ ']' :: after) = lexeme c more := by
      have hhead : (more ++ ']' :: after).head? = some d ↔ more.head? = some d := by
        cases more <;> simp [hd.symm]
      simp only [lexeme_pair h, hhead]
    have hdots : (more ++ ']' :: after).take 2 = ['.', '.'] ↔ more.take 2 = ['.', '.'] := by
      match more with
      | [] => simp
      | [d] => simp
      | d :: e :: more => simp
    fin_cases hsymbol
    · exact hpair List.mem_cons_self (by decide)
    · exact hpair (List.mem_cons_of_mem _ List.mem_cons_self) (by decide)
    · simp only [lexeme_dot, hdots]
    · exact hpair (List.mem_cons_of_mem _ (List.mem_cons_of_mem _ List.mem_cons_self)) (by decide)
    · exact absurd (by simp) hc
    · exact absurd (by simp) hc
    · exact absurd (by simp) hc
    · exact absurd (by simp) hc
    all_goals rfl
  · rw [Bool.not_eq_true] at hdigit
    rw [lexeme_plain hblank hletter hdigit hsymbol, lexeme_plain hblank hletter hdigit hsymbol]

theorem directiveLength_le (text : List Char) : directiveLength text ≤ text.length := by
  fun_induction directiveLength text with (simp only [List.length_cons, List.length_nil]; omega)

theorem blockCommentLength_le (text : List Char) : blockCommentLength text ≤ text.length := by
  fun_induction blockCommentLength text with (simp only [List.length_cons, List.length_nil]; omega)

theorem closedLength?_le {quote : Char} {text : List Char} {length : Nat}
    (h : closedLength? quote text = some length) : length ≤ text.length := by
  fun_induction closedLength? quote text generalizing length with
  | case1 => cases h
  | case2 => cases h
  | case3 c rest hc ih =>
      obtain ⟨inner, hinner, rfl⟩ := Option.map_eq_some_iff.mp h
      simpa using ih hinner
  | case4 rest hpair =>
      cases h
      simp
  | case5 => cases h
  | case6 c rest hpair hquote hfeed ih =>
      obtain ⟨inner, hinner, rfl⟩ := Option.map_eq_some_iff.mp h
      simpa using ih hinner

theorem stringLength_le (text : List Char) : stringLength text ≤ text.length := by
  unfold stringLength
  cases hclosed : closedLength? '"' text with
  | some length => exact closedLength?_le hclosed
  | none =>
      have hline := (text.takeWhile_sublist (· ≠ '\n')).length_le
      dsimp only
      cases hindex : Text.indexOf? [']', ']'] (text.takeWhile (· ≠ '\n')) with
      | none => exact hline
      | some index => exact (Text.indexOf?_le _ hindex).trans hline

-- A word is a keyword or an identifier.
theorem wordKind_ne {kind : TokenKind} (hident : kind ≠ .ident)
    (hkeyword : kind ∉ TokenKind.keywords.map (·.2)) (word : List Char) : wordKind word ≠ kind := by
  unfold wordKind
  cases hfind : TokenKind.keywords.find? fun entry => entry.1.toList == word with
  | none => exact Ne.symm hident
  | some entry =>
      rintro rfl
      exact hkeyword (List.mem_map_of_mem (List.mem_of_find?_eq_some hfind))

-- What holds of every lexeme of a character and the text behind it: it ends with the text, only a
-- closing bracket gives the token of one, and only few characters start skipped text.
structure Lexed (c : Char) (rest : List Char) (lexeme : Lexeme TokenKind) : Prop where
  extra_le : lexeme.extra ≤ rest.length
  closing : lexeme.kind = some .rBracket → c = ']'
  skipped : lexeme.kind = none → c = '/' ∨ c = '#' ∨ isBlank c = true

theorem lexed_token {c : Char} {rest : List Char} {kind : TokenKind} {extra : Nat}
    (hle : extra ≤ rest.length) (hkind : kind = .rBracket → c = ']') :
    Lexed c rest ⟨some kind, extra⟩ :=
  ⟨hle, fun h => hkind (Option.some.inj h), fun h => by cases h⟩

theorem lexed_skipped {c : Char} {rest : List Char} {extra : Nat} (hle : extra ≤ rest.length)
    (hc : c = '/' ∨ c = '#' ∨ isBlank c = true) : Lexed c rest ⟨none, extra⟩ :=
  ⟨hle, fun h => (by cases h), fun _ => hc⟩

theorem lexed_quote (rest : List Char) :
    Lexed '\'' rest (literalLexeme '\'' false .char .error rest) := by
  have hle := literalLexeme_extra_le '\'' false TokenKind.char .error rest
  unfold literalLexeme at hle ⊢
  dsimp only at hle ⊢
  split
  · next hquote =>
    rw [if_pos hquote] at hle
    exact lexed_token hle nofun
  · next hquote =>
    rw [if_neg hquote] at hle
    exact lexed_token hle nofun

theorem lexed_lexeme (c : Char) (rest : List Char) : Lexed c rest (lexeme c rest) := by
  have htake (p : Char → Bool) : (rest.takeWhile p).length ≤ rest.length :=
    (rest.takeWhile_sublist p).length_le
  unfold lexeme
  split
  · next hblank => exact lexed_skipped (htake _) (.inr (.inr hblank))
  split
  · exact lexed_token (htake _) fun h => absurd h (wordKind_ne (by decide) (by decide) _)
  split
  · exact lexed_token (htake _) nofun
  split
  · exact lexed_token (htake _) nofun
  · exact lexed_skipped (htake _) (.inl rfl)
  · next inner _ _ _ =>
    exact lexed_skipped (Nat.succ_le_succ (blockCommentLength_le inner)) (.inl rfl)
  · exact lexed_skipped (directiveLength_le rest) (.inr (.inl rfl))
  · exact lexed_token (stringLength_le rest) nofun
  · exact lexed_quote rest
  all_goals first
    | exact lexed_token (Nat.zero_le _) fun _ => rfl
    | exact lexed_token (Nat.zero_le _) nofun
    | exact lexed_token (by simp) nofun
    | (split <;> exact lexed_token (Nat.zero_le _) nofun)

theorem lexeme_extra_le (c : Char) (rest : List Char) : (lexeme c rest).extra ≤ rest.length :=
  (lexed_lexeme c rest).extra_le

theorem lexeme_ne_rBracket {c : Char} (hc : c ≠ ']') (rest : List Char) :
    (lexeme c rest).kind ≠ some .rBracket :=
  fun h => hc ((lexed_lexeme c rest).closing h)

theorem isBlank_of_skipped {c : Char} {rest : List Char} (hc : c ∉ ['/', '#'])
    (hkind : (lexeme c rest).kind = none) : isBlank c = true := by
  rw [List.mem_pair, not_or] at hc
  exact (((lexed_lexeme c rest).skipped hkind).resolve_left hc.1).resolve_left hc.2

theorem directiveLength_line {line : List Char} (hescape : '\\' ∉ line) (hline : '\n' ∉ line)
    (rest : List Char) : directiveLength (line ++ '\n' :: rest) = line.length := by
  induction line with
  | nil => simp [directiveLength]
  | cons c line ih =>
      rw [List.mem_cons, not_or] at hescape hline
      rw [List.cons_append, directiveLength.eq_2 _ _ fun _ _ h _ => hescape.1 h.symm,
        ih hescape.2 hline.2,
        if_neg (by simp [Ne.symm hescape.1, Ne.symm hline.1]), List.length_cons]

theorem not_mem_skipped {c : Char} {rest : List Char} (hc : c ∉ ['/', '#'])
    (hkind : (lexeme c rest).kind = none) : '#' ∉ c :: rest.take (lexeme c rest).extra := by
  have hblank := isBlank_of_skipped hc hkind
  rw [lexeme_blank hblank, List.mem_cons, not_or]
  dsimp only
  rw [take_takeWhile]
  constructor
  · rintro rfl
    simp at hc
  · intro hmem
    exact absurd (List.mem_takeWhile_imp hmem) (by decide)

theorem lexeme_hash (rest : List Char) : lexeme '#' rest = ⟨none, directiveLength rest⟩ := rfl

-- A character literal that nothing on its line closes takes the rest of the line.
theorem lexeme_quote_line {line : List Char} (hescape : '\\' ∉ line) (hline : '\n' ∉ line)
    (hquote : '\'' ∉ line) (rest : List Char) :
    lexeme '\'' (line ++ '\n' :: rest) = ⟨some .error, line.length⟩ := by
  have helements : literalElements '\'' false (line ++ '\n' :: rest) = line.length := by
    induction line with
    | nil => rfl
    | cons c line ih =>
        rw [List.mem_cons, not_or] at hescape hline hquote
        rw [List.cons_append, literalElements.eq_3 _ _ _ _ fun _ _ h _ => hescape.1 h.symm,
          ih hescape.2 hline.2 hquote.2, List.length_cons,
          if_neg (by simp [Ne.symm hescape.1, Ne.symm hline.1, Ne.symm hquote.1])]
  have hopen : lexeme '\'' (line ++ '\n' :: rest) =
      literalLexeme '\'' false .char .error (line ++ '\n' :: rest) := rfl
  rw [hopen, literalLexeme]
  simp [helements]

end Reflection.Header.Lexical
