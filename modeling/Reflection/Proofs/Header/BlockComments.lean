import Reflection.Proofs.Coverage
import Reflection.Proofs.Header.Expansion

namespace Reflection.Header

open Lexical

-- What a text has brought the reader to.
inductive Region where
  | code
  -- behind a word, which may be the prefix of a raw string
  | word (text : List Char)
  | number
  -- behind a quote in a number
  | separator
  | slash
  | line
  -- behind a backslash in a line comment
  | lineEscape
  | block
  -- behind a star in a block comment
  | star
  | literal (quote : Char)
  -- behind a backslash in a literal
  | escape (quote : Char)
  | rawOpening (delimiter : List Char)
  | raw (delimiter body : List Char)
  deriving DecidableEq

namespace Region

def rawPrefixes : List (List Char) := [['R'], ['L', 'R'], ['u', 'R'], ['U', 'R'], ['u', '8', 'R']]

def isWordPart (c : Char) : Bool := isLetter c || c.isDigit

-- A character of code that has nothing to do with what stands before it.
def ofChar (c : Char) : Region :=
  if c = '/' then slash
  else if c = '"' ∨ c = '\'' then literal c
  else if isLetter c then word [c]
  else if c.isDigit then number
  else code

def inLiteral (quote c : Char) : Region :=
  if c = quote ∨ c = '\n' then code
  else if c = '\\' then escape quote
  else literal quote

-- The reading goes character by character and knows nothing of the tokens.
def next : Region → Char → Region
  | code, c => ofChar c
  | word text, c =>
    if isWordPart c then word (text ++ [c])
    else if c = '"' ∧ text ∈ rawPrefixes then rawOpening []
    else ofChar c
  | number, c =>
    if c = '\'' then separator
    else if isNumberPart c then number
    else ofChar c
  -- the quote opens a literal if the number does not go on behind it
  | separator, c => if isNumberPart c ∧ c ≠ '.' ∧ c ≠ '\'' then number else inLiteral '\'' c
  | slash, c => if c = '/' then line else if c = '*' then block else ofChar c
  | line, c => if c = '\n' then code else if c = '\\' then lineEscape else line
  | lineEscape, c => if c = '\\' then lineEscape else line
  | block, c => if c = '*' then star else block
  | star, c => if c = '/' then code else if c = '*' then star else block
  | literal quote, c => inLiteral quote c
  | escape quote, _ => literal quote
  | rawOpening delimiter, c => if c = '(' then raw delimiter [] else rawOpening (delimiter ++ [c])
  | raw delimiter body, c =>
    if (')' :: (delimiter ++ ['"'])).isSuffixOf (body ++ [c]) then code
    else raw delimiter (body ++ [c])

def after (region : Region) (text : List Char) : Region := text.foldl next region

def isCode : Region → Bool
  | code | word _ | number => true
  | _ => false

def isRaw : Region → Bool
  | rawOpening _ | raw _ _ => true
  | _ => false

-- What a later character has to end, apart from a line comment, which the line ends.
def isOpen : Region → Bool
  | separator | lineEscape | block | star | literal _ | escape _ | rawOpening _ | raw _ _ => true
  | _ => false

variable {region : Region} {text more : List Char}

@[simp] theorem after_nil (region : Region) : region.after [] = region := rfl

@[simp] theorem after_cons (region : Region) (c : Char) (text : List Char) :
    region.after (c :: text) = (region.next c).after text := rfl

theorem after_append (region : Region) (text more : List Char) :
    region.after (text ++ more) = (region.after text).after more :=
  List.foldl_append

end Region

-- A block comment of C++ behind `front`; without its end it runs to the end of the text.
structure IsBlockComment (front comment behind : List Char) : Prop where
  opens : (Region.code.after front).isCode = true
  spelled : ∃ body, ¬['*', '/'] <:+: body ∧
    (comment = '/' :: '*' :: (body ++ ['*', '/']) ∨ comment = '/' :: '*' :: body ∧ behind = [])

-- A byte offset strictly between the start and the end of a block comment.
def InsideBlockComment (text : List Char) (offset : Nat) : Prop :=
  ∃ front comment behind, text = front ++ comment ++ behind ∧
    IsBlockComment front comment behind ∧
    Text.byteLength front < offset ∧ offset < Text.byteLength (front ++ comment)

-- A fragment that is read to its end by itself. A number has to be read as one.
def Fragment.isClosed (fragment : Fragment) : Bool :=
  if fragment.kind = some .number then Region.code.after fragment.text = .number
  else ['/', '*'].isPrefixOf fragment.text || !(Region.code.after fragment.text).isOpen

-- What stands behind is read as if it stood behind code. A backslash that ends the text behind a
-- preprocessor line may also belong to a comment on that line.
def InStep (region : Region) (behind : List Char) : Prop :=
  (∀ c rest, behind = c :: rest → region.next c = .ofChar c) ∨
    behind = ['\\'] ∧ region = .line

namespace Region

section Comments

variable {body : List Char}

-- Without its end a block comment goes on. Behind a star the next character must not end it.
theorem after_block {region : Region} (hregion : region = .block ∨ region = .star)
    (hbody : ¬['*', '/'] <:+: body) (hhead : region = .star → body.head? ≠ some '/') :
    region.after body = .block ∨ region.after body = .star := by
  induction body generalizing region with
  | nil => exact hregion
  | cons c body ih =>
      have hrest : ¬['*', '/'] <:+: body := fun h =>
        hbody (h.trans (List.suffix_cons c body).isInfix)
      rw [after_cons]
      by_cases hc : c = '*'
      · subst hc
        have hnext : region.next '*' = .star := by rcases hregion with rfl | rfl <;> rfl
        rw [hnext]
        refine ih (.inr rfl) hrest fun _ hslash => hbody ?_
        obtain ⟨tail, rfl⟩ := List.head?_eq_some_iff.mp hslash
        exact ⟨[], tail, rfl⟩
      · have hnext : region.next c = .block := by
          rcases hregion with rfl | rfl
          · simp [next, hc]
          · have hslash : c ≠ '/' := by simpa using hhead rfl
            simp [next, hc, hslash]
        rw [hnext]
        exact ih (.inl rfl) hrest (by simp)

theorem after_closed (hbody : ¬['*', '/'] <:+: body) :
    (Region.after .block (body ++ ['*', '/'])) = .code := by
  rw [after_append]
  rcases after_block (.inl rfl) hbody (by simp) with h | h <;> rw [h] <;> rfl

end Comments

section Literals

variable {quote : Char} {text : List Char}

theorem inLiteral_plain {c : Char} (hquote : c ≠ quote) (hline : c ≠ '\n') (hescape : c ≠ '\\') :
    inLiteral quote c = literal quote := by
  simp [inLiteral, hquote, hline, hescape]

theorem inLiteral_escape (hquote : quote ≠ '\\') : inLiteral quote '\\' = escape quote := by
  simp [inLiteral, Ne.symm hquote]

theorem after_closedLength (hquote : quote ≠ '\\') {length : Nat}
    (h : closedLength? quote text = some length) :
    (literal quote).after (text.take length) = code := by
  fun_induction closedLength? quote text generalizing length with
  | case1 => cases h
  | case2 => cases h
  | case3 c rest hc ih =>
      obtain ⟨inner, hinner, rfl⟩ := Option.map_eq_some_iff.mp h
      rw [List.take_succ_cons, List.take_succ_cons, after_cons, after_cons, next,
        inLiteral_escape hquote]
      exact ih hinner
  | case4 rest hpair =>
      cases h
      simp [next, inLiteral]
  | case5 => cases h
  | case6 c rest hpair hc hfeed ih =>
      obtain ⟨inner, hinner, rfl⟩ := Option.map_eq_some_iff.mp h
      have hescape : c ≠ '\\' := by
        rintro rfl
        cases rest with
        | nil => cases hinner
        | cons d rest => exact hpair d rest rfl rfl
      rw [List.take_succ_cons, after_cons, next, inLiteral_plain hc hfeed hescape]
      exact ih hinner

-- A literal that nothing on its line closes is open wherever on the line it is cut.
theorem after_unclosed (hquote : quote ≠ '\\') (h : closedLength? quote text = none)
    {front : List Char} (hfront : front <+: text.takeWhile (· ≠ '\n')) :
    ((literal quote).after front).isOpen = true := by
  fun_induction closedLength? quote text generalizing front with
  | case1 =>
      rw [List.takeWhile_nil, List.prefix_nil] at hfront
      subst hfront
      rfl
  | case2 rest =>
      have hline : ('\\' :: '\n' :: rest).takeWhile (· ≠ '\n') = ['\\'] := by simp
      rw [hline, List.prefix_cons_iff] at hfront
      obtain rfl | ⟨tail, rfl, htail⟩ := hfront
      · rfl
      · rw [List.prefix_nil.mp htail, after_cons, next, inLiteral_escape hquote]
        rfl
  | case3 c rest hc ih =>
      have hline : ('\\' :: c :: rest).takeWhile (· ≠ '\n') =
          '\\' :: c :: rest.takeWhile (· ≠ '\n') := by simp [hc]
      rw [hline, List.prefix_cons_iff] at hfront
      obtain rfl | ⟨tail, rfl, htail⟩ := hfront
      · rfl
      rw [after_cons, next, inLiteral_escape hquote]
      obtain rfl | ⟨inner, rfl, hinner⟩ := List.prefix_cons_iff.mp htail
      · rfl
      · exact ih (Option.map_eq_none_iff.mp h) hinner
  | case4 => cases h
  | case5 =>
      rw [List.takeWhile_cons_of_neg (by simp), List.prefix_nil] at hfront
      subst hfront
      rfl
  | case6 c rest hpair hc hfeed ih =>
      rw [List.takeWhile_cons_of_pos (by simpa using hfeed), List.prefix_cons_iff] at hfront
      obtain rfl | ⟨tail, rfl, htail⟩ := hfront
      · rfl
      by_cases hescape : c = '\\'
      · subst hescape
        cases rest with
        | cons d rest => exact absurd rfl (hpair d rest rfl)
        | nil =>
            rw [List.takeWhile_nil, List.prefix_nil] at htail
            rw [htail, after_cons, next, inLiteral_escape hquote]
            rfl
      · rw [after_cons, next, inLiteral_plain hc hfeed hescape]
        exact ih (Option.map_eq_none_iff.mp h) htail

theorem after_literalElements (hquote : quote ≠ '\\') :
    (literal quote).after (text.take (literalElements quote false text)) = literal quote := by
  fun_induction literalElements quote false text with
  | case1 => rfl
  | case2 => rfl
  | case3 c rest hc ih =>
      rw [List.take_succ_cons, List.take_succ_cons, after_cons, after_cons, next,
        inLiteral_escape hquote]
      exact ih
  | case4 => rfl
  | case5 c rest hpair hc ih =>
      simp only [Bool.or_eq_true, decide_eq_true_eq, Bool.not_false, Bool.and_true, not_or] at hc
      rw [List.take_succ_cons, after_cons, next, inLiteral_plain hc.1.1 hc.2 hc.1.2]
      exact ih

end Literals

section Code

variable {text more : List Char}

theorem after_code (h : ∀ c ∈ text, ofChar c = code) : code.after text = code := by
  induction text with
  | nil => rfl
  | cons c text ih =>
      rw [List.forall_mem_cons] at h
      rw [after_cons, next, h.1]
      exact ih h.2

theorem after_word (h : ∀ c ∈ more, isWordPart c = true) :
    (word text).after more = word (text ++ more) := by
  induction more generalizing text with
  | nil => simp
  | cons c more ih =>
      rw [List.forall_mem_cons] at h
      rw [after_cons, next, if_pos h.1, ih h.2, List.append_assoc, List.singleton_append]

theorem ofChar_blank {c : Char} (h : isBlank c = true) : ofChar c = code := by
  rw [isBlank_iff] at h
  fin_cases h <;> rfl

-- A line feed, or a backslash, is read as code wherever nothing is open.
theorem next_feed {region : Region} (h : region.isOpen = false) :
    region.next '\n' = ofChar '\n' := by
  cases region <;> first | rfl | cases h

theorem next_backslash {region : Region} (h : region.isOpen = false) (hline : region ≠ line) :
    region.next '\\' = ofChar '\\' := by
  cases region <;> first | rfl | exact absurd rfl hline | cases h

end Code

end Region

section Pieces

variable {c : Char} {more rest : List Char} {kind : Option TokenKind}

theorem inStep_code (rest : List Char) : InStep .code rest := .inl fun _ _ _ => rfl

theorem inStep_of_head {region : Region}
    (h : ∀ c, rest.head? = some c → region.next c = .ofChar c) : InStep region rest :=
  .inl fun c _ hrest => h c (by rw [hrest]; rfl)

-- At the end of a line.
theorem inStep_line {region : Region} (hopen : region.isOpen = false)
    (hend : rest.head?.all (· = '\n') = true) : InStep region rest := by
  refine inStep_of_head fun c hc => ?_
  have hfeed : c = '\n' := by simpa [hc] using hend
  rw [hfeed, Region.next_feed hopen]

theorem ofChar_symbol (hletter : isLetter c = false) (hdigit : c.isDigit = false)
    (hc : c ∉ ['/', '"', '\'']) : Region.ofChar c = .code := by
  simp only [List.mem_cons, List.not_mem_nil, or_false, not_or] at hc
  simp [Region.ofChar, hc, hletter, hdigit]

-- What is neither word, number, literal nor skipped text consists of symbols.
theorem symbols_of_lexeme (hblank : isBlank c = false) (hletter : isLetter c = false)
    (hdigit : c.isDigit = false) (hc : c ∉ ['/', '#', '"', '\''])
    (h : lexeme c (more ++ rest) = ⟨kind, more.length⟩) :
    Region.code.after (c :: more) = .code := by
  have hfirst : Region.ofChar c = .code :=
    ofChar_symbol hletter hdigit fun hmem => hc (by simp at hmem ⊢; tauto)
  have hsingle (hextra : (lexeme c (more ++ rest)).extra = 0) :
      Region.code.after (c :: more) = .code := by
    rw [h] at hextra
    rw [List.length_eq_zero_iff.mp hextra]
    exact hfirst
  have hpair {d : Char} {joined alone : TokenKind} (hd : Region.ofChar d = .code)
      (hpair : (c, d, joined, alone) ∈ pairs) : Region.code.after (c :: more) = .code := by
    by_cases hhead : (more ++ rest).head? = some d
    · cases more with
      | nil => exact hfirst
      | cons e more =>
          rw [lexeme_pair hpair, if_pos hhead, Lexeme.mk.injEq] at h
          obtain rfl : e = d := by simpa using hhead
          rw [List.length_eq_zero_iff.mp (Nat.succ.inj h.2).symm]
          exact Region.after_code (by simp [hfirst, hd])
    · exact hsingle (by rw [lexeme_pair hpair, if_neg hhead])
  by_cases hsymbol : c ∈ symbols
  · fin_cases hsymbol
    · exact hpair rfl List.mem_cons_self
    · exact hpair rfl (List.mem_cons_of_mem _ List.mem_cons_self)
    · by_cases hdots : (more ++ rest).take 2 = ['.', '.']
      · rw [lexeme_dot, if_pos hdots, Lexeme.mk.injEq] at h
        have hmore : more = ['.', '.'] := by
          rw [← hdots, h.2, List.take_left]
        rw [hmore]
        rfl
      · exact hsingle (by rw [lexeme_dot, if_neg hdots])
    · exact hpair rfl (List.mem_cons_of_mem _ (List.mem_cons_of_mem _ List.mem_cons_self))
    · exact absurd (by simp) hc
    · exact absurd (by simp) hc
    · exact absurd (by simp) hc
    · exact absurd (by simp) hc
    all_goals exact hsingle rfl
  · refine hsingle ?_
    rw [lexeme_plain hblank hletter hdigit hsymbol]
    split <;> rfl

theorem inStep_blank (hblank : isBlank c = true)
    (h : lexeme c (more ++ rest) = ⟨kind, more.length⟩) :
    InStep (Region.code.after (c :: more)) rest := by
  rw [lexeme_blank hblank, Lexeme.mk.injEq] at h
  have hmore := takeWhile_eq_of_length h.2
  have hall : ∀ d ∈ c :: more, Region.ofChar d = .code := by
    rw [List.forall_mem_cons]
    exact ⟨Region.ofChar_blank hblank, fun d hd =>
      Region.ofChar_blank (List.mem_takeWhile_imp (hmore.symm ▸ hd))⟩
  rw [Region.after_code hall]
  exact inStep_code rest

theorem ofChar_letter (hletter : isLetter c = true) : Region.ofChar c = .word [c] := by
  have hne : c ≠ '/' ∧ c ≠ '"' ∧ c ≠ '\'' := by
    refine ⟨?_, ?_, ?_⟩ <;> rintro rfl <;> cases hletter
  simp [Region.ofChar, hne, hletter]

-- Only a quote would make the word the prefix of a raw string.
theorem inStep_word (hletter : isLetter c = true)
    (h : lexeme c (more ++ rest) = ⟨kind, more.length⟩)
    (hraw : ∀ front, front <+: c :: (more ++ rest) → (Region.code.after front).isRaw = false) :
    InStep (Region.code.after (c :: more)) rest := by
  rw [lexeme_letter hletter, Lexeme.mk.injEq] at h
  have hmore := takeWhile_eq_of_length h.2
  have hall : ∀ d ∈ more, Region.isWordPart d = true := fun d hd =>
    List.mem_takeWhile_imp (hmore.symm ▸ hd)
  have hword : Region.code.after (c :: more) = .word ([c] ++ more) := by
    rw [Region.after_cons, Region.next, ofChar_letter hletter, Region.after_word hall]
  have hend := head_of_takeWhile hmore
  refine inStep_of_head fun d hd => ?_
  have hpart : Region.isWordPart d = false := by simpa [hd, Region.isWordPart] using hend
  by_cases hopening : d = '"' ∧ [c] ++ more ∈ Region.rawPrefixes
  · obtain ⟨tail, rfl⟩ := List.head?_eq_some_iff.mp hd
    have hfront := hraw (c :: more ++ [d]) ⟨tail, by simp⟩
    rw [Region.after_append, hword, Region.after_cons, Region.next, if_neg (by simp [hpart]),
      if_pos hopening] at hfront
    cases hfront
  · rw [hword, Region.next, if_neg (by simp [hpart]), if_neg hopening]

theorem inStep_number (hblank : isBlank c = false) (hletter : isLetter c = false)
    (hdigit : c.isDigit = true) (h : lexeme c (more ++ rest) = ⟨kind, more.length⟩)
    (hclosed : Fragment.isClosed ⟨kind, c :: more⟩ = true) :
    InStep (Region.code.after (c :: more)) rest := by
  rw [lexeme_digit hblank hletter hdigit, Lexeme.mk.injEq] at h
  have hend := head_of_takeWhile (takeWhile_eq_of_length h.2)
  rw [Fragment.isClosed, if_pos h.1.symm, decide_eq_true_eq] at hclosed
  refine inStep_of_head fun d hd => ?_
  have hpart : isNumberPart d = false := by simpa [hd] using hend
  have hquote : d ≠ '\'' := by
    rintro rfl
    cases hpart
  rw [hclosed, Region.next, if_neg hquote, if_neg (by simp [hpart])]

theorem isOpen_of_closed (hkind : kind ≠ some .number)
    (hcomment : ['/', '*'].isPrefixOf (c :: more) = false)
    (hclosed : Fragment.isClosed ⟨kind, c :: more⟩ = true) :
    (Region.code.after (c :: more)).isOpen = false := by
  rw [Fragment.isClosed, if_neg hkind, hcomment] at hclosed
  simpa using hclosed

-- A comment, or the operator.
theorem inStep_slash (h : lexeme '/' (more ++ rest) = ⟨kind, more.length⟩)
    (hclosed : Fragment.isClosed ⟨kind, '/' :: more⟩ = true) :
    InStep (Region.code.after ('/' :: more)) rest := by
  cases more with
  | nil =>
      have hend := slash_alone h
      refine inStep_of_head fun d hd => ?_
      have hne : d ≠ '/' ∧ d ≠ '*' := by simpa [hd] using hend
      simp [Region.next, Region.ofChar, hne]
  | cons d more =>
      by_cases hslash : d = '/'
      · subst hslash
        have hline := takeWhile_of_comment h
        have hkind : kind ≠ some .number := by
          rw [List.cons_append, lexeme_comment, Lexeme.mk.injEq] at h
          rw [← h.1]
          split <;> simp
        exact inStep_line (isOpen_of_closed hkind rfl hclosed)
          (by simpa using head_of_takeWhile hline)
      by_cases hstar : d = '*'
      · subst hstar
        rw [List.cons_append, lexeme_block, Lexeme.mk.injEq] at h
        have hlength : blockCommentLength (more ++ rest) = more.length := Nat.succ.inj h.2
        rcases blockComment_take (more ++ rest) with ⟨body, htake, hbody⟩ | ⟨hdrop, -⟩
        · rw [hlength, List.take_left] at htake
          have hafter : Region.code.after ('/' :: '*' :: more) = .code := by
            rw [htake]
            exact Region.after_closed hbody
          rw [hafter]
          exact inStep_code rest
        · rw [hlength, List.drop_left] at hdrop
          exact inStep_of_head (by simp [hdrop])
      · rw [List.cons_append, lexeme_slash (by simp [hslash, hstar])] at h
        cases h

theorem inStep_directive (h : lexeme '#' (more ++ rest) = ⟨kind, more.length⟩)
    (hclosed : Fragment.isClosed ⟨kind, '#' :: more⟩ = true) :
    InStep (Region.code.after ('#' :: more)) rest := by
  rw [lexeme_hash, Lexeme.mk.injEq] at h
  have hopen := isOpen_of_closed (by simp [← h.1]) rfl hclosed
  rcases end_of_directiveLength h.2 with hfeed | rfl
  · exact inStep_line hopen hfeed
  · by_cases hline : Region.code.after ('#' :: more) = .line
    · exact .inr ⟨rfl, hline⟩
    · refine inStep_of_head fun d hd => ?_
      obtain rfl : '\\' = d := by simpa using hd
      exact Region.next_backslash hopen hline

theorem inStep_string (h : lexeme '"' (more ++ rest) = ⟨kind, more.length⟩)
    (hclosed : Fragment.isClosed ⟨kind, '"' :: more⟩ = true) :
    InStep (Region.code.after ('"' :: more)) rest := by
  rw [lexeme_string, Lexeme.mk.injEq] at h
  have hopen := isOpen_of_closed (by simp [← h.1]) rfl hclosed
  have hlength := h.2
  unfold stringLength at hlength
  cases hclosing : closedLength? '"' (more ++ rest) with
  | some length =>
      rw [hclosing] at hlength
      have hafter : Region.code.after ('"' :: more) = .code := by
        have hall := Region.after_closedLength (by decide) hclosing
        rwa [show length = more.length from hlength, List.take_left] at hall
      rw [hafter]
      exact inStep_code rest
  | none =>
      rw [hclosing] at hlength
      have hline := List.takeWhile_prefix (· ≠ '\n') (l := more ++ rest)
      have hle : more.length ≤ ((more ++ rest).takeWhile (· ≠ '\n')).length := by
        rw [← hlength]
        dsimp only
        cases hindex : Text.indexOf? [']', ']'] ((more ++ rest).takeWhile (· ≠ '\n')) with
        | none => exact le_rfl
        | some index => exact Text.indexOf?_le _ hindex
      have hfront := List.prefix_of_prefix_length_le (List.prefix_append more rest) hline hle
      have hstill := Region.after_unclosed (by decide) hclosing hfront
      rw [Region.after_cons] at hopen
      rw [show Region.code.next '"' = .literal '"' from rfl, hstill] at hopen
      cases hopen

theorem inStep_quote (h : lexeme '\'' (more ++ rest) = ⟨kind, more.length⟩)
    (hclosed : Fragment.isClosed ⟨kind, '\'' :: more⟩ = true) :
    InStep (Region.code.after ('\'' :: more)) rest := by
  rw [Lexical.lexeme_quote] at h
  unfold literalLexeme at h
  dsimp only at h
  have helements := @Region.after_literalElements '\'' (more ++ rest) (by decide)
  split at h
  · next hquote =>
    obtain ⟨tail, htail⟩ := List.head?_eq_some_iff.mp hquote
    rw [Lexeme.mk.injEq] at h
    have hmore :
        more = (more ++ rest).take (literalElements '\'' false (more ++ rest)) ++ ['\''] := by
      have htake := @List.take_left _ more rest
      rw [← h.2, List.take_add, htail] at htake
      exact htake.symm
    have hafter : Region.code.after ('\'' :: more) = .code := by
      rw [hmore, Region.after_cons, Region.after_append,
        show Region.code.next '\'' = .literal '\'' from rfl, helements]
      rfl
    rw [hafter]
    exact inStep_code rest
  · rw [Lexeme.mk.injEq] at h
    have hopen := isOpen_of_closed (by simp [← h.1]) rfl hclosed
    rw [h.2, List.take_left] at helements
    rw [Region.after_cons, show Region.code.next '\'' = .literal '\'' from rfl, helements] at hopen
    cases hopen

-- From one piece of a header to the next: a closed piece leaves the reading in step.
theorem inStep_piece (h : lexeme c (more ++ rest) = ⟨kind, more.length⟩)
    (hclosed : Fragment.isClosed ⟨kind, c :: more⟩ = true)
    (hraw : ∀ front, front <+: c :: (more ++ rest) → (Region.code.after front).isRaw = false) :
    InStep (Region.code.after (c :: more)) rest := by
  by_cases hblank : isBlank c = true
  · exact inStep_blank hblank h
  by_cases hletter : isLetter c = true
  · exact inStep_word hletter h hraw
  rw [Bool.not_eq_true] at hblank hletter
  by_cases hdigit : c.isDigit = true
  · exact inStep_number hblank hletter hdigit h hclosed
  rw [Bool.not_eq_true] at hdigit
  by_cases hc : c ∈ ['/', '#', '"', '\'']
  · fin_cases hc
    · exact inStep_slash h hclosed
    · exact inStep_directive h hclosed
    · exact inStep_string h hclosed
    · exact inStep_quote h hclosed
  · rw [symbols_of_lexeme hblank hletter hdigit hc h]
    exact inStep_code rest

end Pieces

-- A piece that is in step is read as if it stood behind code.
theorem InStep.after_eq {region : Region} {c : Char} {more rest : List Char}
    (h : InStep region (c :: (more ++ rest))) (hline : c :: (more ++ rest) ≠ ['\\']) :
    region.after (c :: more) = Region.code.after (c :: more) := by
  rcases h with hnext | ⟨hlast, -⟩
  · rw [Region.after_cons, Region.after_cons, hnext c _ rfl]
    rfl
  · exact absurd hlast hline

-- By induction on the pieces: the reading is in step wherever a token starts.
theorem inStep_scanFrom {start : Nat} {lead text : List Char} {region : Region}
    (hstep : InStep region text) (hclosed : ∀ fragment ∈ fragments text, fragment.isClosed = true)
    (hraw : ∀ front, front <+: text → (region.after front).isRaw = false) :
    ∀ token ∈ (scanFrom lexeme .eof start lead text).items,
      ∃ front rest, text = front ++ rest ∧ rest ≠ [] ∧
        token.start = start + Text.byteLength front ∧ InStep (region.after front) rest := by
  induction text using fragments_induction generalizing start lead region with
  | nil => simp [scanFrom]
  | cons c more rest kind h ih =>
      rw [fragments_of_lexeme h, List.forall_mem_cons] at hclosed
      have hrest : ∀ lead, ∀ token ∈
          (scanFrom lexeme .eof (start + Text.byteLength (c :: more)) lead rest).items,
          ∃ front after, c :: (more ++ rest) = front ++ after ∧ after ≠ [] ∧
            token.start = start + Text.byteLength front ∧ InStep (region.after front) after := by
        by_cases hlast : c :: (more ++ rest) = ['\\']
        · have hnil : rest = [] := by simp_all
          subst hnil
          simp [scanFrom]
        have hafter := hstep.after_eq hlast
        have hraw' : ∀ front, front <+: c :: (more ++ rest) →
            (Region.code.after front).isRaw = false := by
          intro front hfront
          cases front with
          | nil => rfl
          | cons d front =>
              obtain ⟨tail, htail⟩ := hfront
              rw [← hraw (d :: front) ⟨tail, htail⟩]
              rw [← htail] at hstep hlast
              rw [hstep.after_eq hlast]
        have hpiece := inStep_piece h hclosed.1 hraw'
        intro lead token hmem
        obtain ⟨front, after, htext, hne, hstart, hin⟩ := ih (hafter ▸ hpiece) hclosed.2
          (fun front hfront => by
            rw [← Region.after_append]
            exact hraw _ (by simpa using hfront)) token hmem
        refine ⟨c :: more ++ front, after, by simp [htext], hne, ?_, ?_⟩
        · rw [hstart, Text.byteLength_append, Nat.add_assoc]
        · rwa [Region.after_append]
      cases kind with
      | none =>
          rw [scanFrom_skip h, List.take_left, List.drop_left]
          exact hrest _
      | some kind =>
          rw [scanFrom_whole h]
          refine List.forall_mem_cons.mpr ⟨⟨[], _, rfl, List.cons_ne_nil _ _, rfl, hstep⟩, hrest []⟩

section Inside

variable {region : Region} {front rest body : List Char}

theorem ofChar_ne_comment (c : Char) : Region.ofChar c ≠ .block ∧ Region.ofChar c ≠ .star := by
  unfold Region.ofChar
  split_ifs <;> simp

-- Within a block comment nothing is read as code would be.
theorem not_inStep_comment (hregion : region = .block ∨ region = .star) (hrest : rest ≠ []) :
    ¬InStep region rest := by
  rintro (hnext | ⟨-, rfl⟩)
  · obtain ⟨c, rest, rfl⟩ := List.exists_cons_of_ne_nil hrest
    have hc := hnext c rest rfl
    obtain ⟨hblock, hstar⟩ := ofChar_ne_comment c
    rcases hregion with rfl | rfl
    · by_cases h : c = '*'
      · exact hstar (by rw [← hc, Region.next, if_pos h])
      · exact hblock (by rw [← hc, Region.next, if_neg h])
    · by_cases hslash : c = '/'
      · subst hslash
        cases hc
      by_cases h : c = '*'
      · exact hstar (by rw [← hc, Region.next, if_neg hslash, if_pos h])
      · exact hblock (by rw [← hc, Region.next, if_neg hslash, if_neg h])
  · simp at hregion

theorem not_inStep_opening (hrest : rest.head? = some '*') : ¬InStep .slash rest := by
  obtain ⟨tail, rfl⟩ := List.head?_eq_some_iff.mp hrest
  rintro (hnext | ⟨hlast, -⟩)
  · cases hnext '*' tail rfl
  · simp at hlast

theorem next_slash_of_isCode (h : region.isCode = true) : region.next '/' = .slash := by
  cases region <;> first | rfl | cases h

-- Strictly within a block comment, what has been read of it has not ended it.
theorem after_part {comment behind part : List Char} (h : IsBlockComment front comment behind)
    (hpart : part <+: comment) (hne : part ≠ comment) (hopened : 2 ≤ part.length) :
    Region.code.after (front ++ part) = .block ∨ Region.code.after (front ++ part) = .star := by
  obtain ⟨body, hbody, hspelled⟩ := h.spelled
  match part, hopened with
  | c :: d :: inner, _ =>
    have hinner : c = '/' ∧ d = '*' ∧ inner <+: body ++ ['*'] := by
      rcases hspelled with rfl | ⟨rfl, -⟩
      · simp only [List.cons_prefix_cons] at hpart
        refine ⟨hpart.1, hpart.2.1, ?_⟩
        have hconcat : body ++ ['*', '/'] = body ++ ['*'] ++ ['/'] := by simp
        rw [hconcat] at hpart hne
        refine (List.prefix_concat_iff.mp hpart.2.2).resolve_left ?_
        rintro rfl
        exact hne (by rw [hpart.1, hpart.2.1])
      · simp only [List.cons_prefix_cons] at hpart
        exact ⟨hpart.1, hpart.2.1, hpart.2.2.trans (List.prefix_append _ _)⟩
    obtain ⟨rfl, rfl, hinner⟩ := hinner
    have hclean : ¬['*', '/'] <:+: inner := fun hwithin =>
      not_infix_concat (by decide) hbody (hwithin.trans hinner.isInfix)
    rw [Region.after_append, Region.after_cons, next_slash_of_isCode h.opens, Region.after_cons]
    exact Region.after_block (.inl rfl) hclean nofun

theorem byteLength_lt_of_prefix {left right text : List Char} (hleft : left <+: text)
    (hright : right <+: text) (h : Text.byteLength left < Text.byteLength right) :
    ∃ part, part ≠ [] ∧ right = left ++ part := by
  rcases List.prefix_or_prefix_of_prefix hleft hright with ⟨part, rfl⟩ | hother
  · refine ⟨part, ?_, rfl⟩
    rintro rfl
    simp at h
  · have := Text.byteLength_le_of_isPrefix hother
    omega

theorem not_inside_of_inStep (hstep : InStep (Region.code.after front) rest) (hrest : rest ≠ []) :
    ¬InsideBlockComment (front ++ rest) (Text.byteLength front) := by
  rintro ⟨before, comment, behind, htext, hcomment, hlower, hupper⟩
  have hbefore : before <+: front ++ rest := ⟨comment ++ behind, by rw [htext, List.append_assoc]⟩
  have hwhole : before ++ comment <+: front ++ rest := ⟨behind, htext.symm⟩
  obtain ⟨part, hpart, rfl⟩ := byteLength_lt_of_prefix hbefore (List.prefix_append _ _) hlower
  obtain ⟨left, hleft, hcut⟩ :=
    byteLength_lt_of_prefix (List.prefix_append _ _) hwhole hupper
  rw [List.append_assoc, List.append_cancel_left_eq] at hcut
  have hne : part ≠ comment := by
    rintro rfl
    exact hleft (by simpa using hcut)
  by_cases hopened : 2 ≤ part.length
  · exact not_inStep_comment (after_part hcomment ⟨left, hcut.symm⟩ hne hopened) hrest hstep
  · obtain ⟨body, -, hspelled⟩ := hcomment.spelled
    have hstart : ∃ tail, comment = '/' :: '*' :: tail := by
      rcases hspelled with rfl | ⟨rfl, -⟩ <;> exact ⟨_, rfl⟩
    obtain ⟨tail, rfl⟩ := hstart
    match part, hpart with
    | [c], _ =>
      obtain ⟨rfl, hleft'⟩ := List.cons.inj hcut
      rw [Region.after_append, Region.after_cons, next_slash_of_isCode hcomment.opens,
        Region.after_nil] at hstep
      refine not_inStep_opening ?_ hstep
      have hbehind : rest = '*' :: tail ++ behind := by simpa using htext
      rw [hbehind]
      rfl
    | _ :: _ :: _, _ => simp at hopened

end Inside

-- Comments beside all that could be taken for one, or hide one.
def mixedHeader : List Char :=
  ("#include <a> // b /* c\n" ++ "/* x\n y */ int n = 1'000; // it's\n" ++
    "char c = '\"'; /* '\"\n */ S s(\"/*\\\"\", R, u8'/'); #x \"/*\" \\\n y\nint z / 2;").toList

-- No token starts within a block comment, if each piece of the header is read to its end by itself
-- and there is no raw string literal in it.
theorem not_insideBlockComment {text : List Char}
    (hclosed : ∀ fragment ∈ fragments text, fragment.isClosed = true)
    (hraw : ∀ front, front <+: text → (Region.code.after front).isRaw = false) :
    ∀ token ∈ tokenize text, ¬InsideBlockComment text token.start := by
  intro token hmem
  rcases List.mem_append.mp hmem with hitem | hending
  · obtain ⟨front, rest, rfl, hrest, hstart, hstep⟩ :=
      inStep_scanFrom (inStep_code text) hclosed hraw token hitem
    rw [hstart, Nat.zero_add]
    exact not_inside_of_inStep hstep hrest
  · have hend : (scan text).ending.start = 0 + Text.byteLength text := congrArg Span.start
      (covering_scan skipped_of_lexeme lexeme_ne_eof text).2.span_ending
    have hstart : token.start = Text.byteLength text := by
      rw [List.mem_singleton.mp hending, hend, Nat.zero_add]
    rintro ⟨front, comment, behind, htext, -, -, hupper⟩
    rw [hstart, htext, Text.byteLength_append] at hupper
    omega

theorem not_insideBlockComment_mixed :
    (∀ fragment ∈ fragments mixedHeader, fragment.isClosed = true) ∧
      (∀ front, front <+: mixedHeader → (Region.code.after front).isRaw = false) ∧
      ∀ token ∈ tokenize mixedHeader, ¬InsideBlockComment mixedHeader token.start := by
  have hclosed : ∀ fragment ∈ fragments mixedHeader, fragment.isClosed = true := by
    rw [← List.all_eq_true]
    decide +kernel
  have hraw : ∀ front ∈ mixedHeader.inits, (Region.code.after front).isRaw = false := by
    decide +kernel
  have hraw : ∀ front, front <+: mixedHeader → (Region.code.after front).isRaw = false :=
    fun front hfront => hraw front ((List.mem_inits front mixedHeader).mpr hfront)
  exact ⟨hclosed, hraw, not_insideBlockComment hclosed hraw⟩

-- The comment on the preprocessor line goes on behind it, but its words are read as tokens.
theorem insideBlockComment_directive :
    ∃ token ∈ tokenize "#define X /* a\n b */ int y;".toList,
      token.kind = .ident ∧ token.text = ['b'] ∧
        InsideBlockComment "#define X /* a\n b */ int y;".toList token.start := by
  refine ⟨⟨.ident, 16, "#define X /* a\n ".toList, ['b']⟩, by decide +kernel, rfl, rfl, ?_⟩
  refine ⟨"#define X ".toList, "/* a\n b */".toList, " int y;".toList, rfl, ⟨rfl, ?_⟩, by decide,
    by decide⟩
  exact ⟨" a\n b ".toList, by decide, .inl rfl⟩

end Reflection.Header
