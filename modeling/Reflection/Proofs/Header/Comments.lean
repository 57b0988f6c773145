import Reflection.Proofs.Header.Expansion
import Reflection.Proofs.Placement

namespace Reflection.Header

open Lexical

-- A block comment with this text in it, between blanks.
def blockComment (body : List Char) : List Char :=
  [' ', '/', '*', ' '] ++ body ++ [' ', '*', '/', ' ']

namespace Lexical

theorem blockCommentLength_closed {inner : List Char} (h : ¬['*', '/'] <:+: inner)
    (rest : List Char) :
    blockCommentLength (inner ++ '*' :: '/' :: rest) = inner.length + 2 := by
  induction inner with
  | nil => rfl
  | cons c inner ih =>
      have hinner : ¬['*', '/'] <:+: inner := fun hwithin =>
        h (hwithin.trans (List.suffix_cons c inner).isInfix)
      have hopen : ∀ tail, c = '*' → inner ++ '*' :: '/' :: rest = '/' :: tail → False := by
        rintro tail rfl htail
        cases inner with
        | nil => simp at htail
        | cons d inner =>
            obtain ⟨rfl, -⟩ := List.cons.inj htail
            exact h (List.prefix_append ['*', '/'] inner).isInfix
      rw [List.cons_append, blockCommentLength.eq_2 _ _ hopen, ih hinner, List.length_cons]

section Lines

variable {quote : Char} {line : List Char}

-- A backslash with nothing behind it does not end a line.
theorem ne_backslash {c : Char} (h : '\n' ∈ c :: line)
    (hpair : ∀ (d : Char) (rest : List Char), c = '\\' → line = d :: rest → False) : c ≠ '\\' := by
  rintro rfl
  cases line with
  | nil => simp at h
  | cons d rest => exact hpair d rest rfl rfl

-- What is read of a literal does not depend on the text behind its line.
theorem closedLength?_line (h : '\n' ∈ line) (rest : List Char) :
    closedLength? quote (line ++ rest) = closedLength? quote line := by
  fun_induction closedLength? quote line with
  | case1 => cases h
  | case2 => rw [List.cons_append, List.cons_append, closedLength?, if_pos rfl]
  | case3 c line hc ih =>
      have hline : '\n' ∈ line := by simpa [Ne.symm hc] using h
      rw [List.cons_append, List.cons_append, closedLength?, if_neg hc, ih hline]
  | case4 line hpair =>
      have hescape := ne_backslash h hpair
      rw [List.cons_append, closedLength?.eq_3 _ _ _ fun _ _ hc _ => hescape hc, if_pos rfl]
  | case5 line hpair hquote =>
      rw [List.cons_append, closedLength?.eq_3 _ _ _ fun _ _ hc _ => absurd hc (by decide),
        if_neg hquote, if_pos rfl]
  | case6 c line hpair hquote hfeed ih =>
      have hescape := ne_backslash h hpair
      have hline : '\n' ∈ line := by simpa [Ne.symm hfeed] using h
      rw [List.cons_append, closedLength?.eq_3 _ _ _ fun _ _ hc _ => hescape hc, if_neg hquote,
        if_neg hfeed, ih hline]

theorem takeWhile_line (h : '\n' ∈ line) (rest : List Char) :
    (line ++ rest).takeWhile (· ≠ '\n') = line.takeWhile (· ≠ '\n') := by
  obtain ⟨front, behind, rfl⟩ := List.append_of_mem h
  rw [List.append_assoc, List.cons_append, takeWhile_append_stop (by decide),
    takeWhile_append_stop (by decide)]

theorem stringLength_line (h : '\n' ∈ line) (rest : List Char) :
    stringLength (line ++ rest) = stringLength line := by
  unfold stringLength
  rw [closedLength?_line h, takeWhile_line h]

theorem literalElements_line (h : '\n' ∈ line) (rest : List Char) :
    literalElements quote false (line ++ rest) = literalElements quote false line ∧
      literalElements quote false line < line.length := by
  fun_induction literalElements quote false line with
  | case1 => cases h
  | case2 =>
      rw [List.cons_append, List.cons_append, literalElements, if_pos rfl]
      exact ⟨rfl, Nat.zero_lt_succ _⟩
  | case3 c line hc ih =>
      have hline : '\n' ∈ line := by simpa [Ne.symm hc] using h
      obtain ⟨hsame, hlt⟩ := ih hline
      rw [List.cons_append, List.cons_append, literalElements, if_neg hc, hsame]
      exact ⟨rfl, Nat.add_lt_add_right hlt 2⟩
  | case4 c line hpair hc =>
      have hescape := ne_backslash h hpair
      rw [List.cons_append, literalElements.eq_3 _ _ _ _ fun _ _ hc _ => hescape hc, if_pos hc]
      exact ⟨rfl, Nat.zero_lt_succ _⟩
  | case5 c line hpair hc ih =>
      have hescape := ne_backslash h hpair
      have hline : '\n' ∈ line := by
        refine (List.mem_cons.mp h).resolve_left fun hfeed => hc ?_
        simp [← hfeed]
      obtain ⟨hsame, hlt⟩ := ih hline
      rw [List.cons_append, literalElements.eq_3 _ _ _ _ fun _ _ hc _ => hescape hc, if_neg hc,
        hsame]
      exact ⟨rfl, Nat.succ_lt_succ hlt⟩

theorem literalLexeme_line {κ : Type} (literal error : κ) (h : '\n' ∈ line) (rest : List Char) :
    literalLexeme quote false literal error (line ++ rest) =
      literalLexeme quote false literal error line := by
  obtain ⟨hsame, hlt⟩ := @literalElements_line quote line h rest
  have hhead : ((line ++ rest).drop (literalElements quote false line)).head? =
      (line.drop (literalElements quote false line)).head? := by
    rw [List.drop_append_of_le_length hlt.le, List.head?_append_of_ne_nil]
    simpa using hlt
  unfold literalLexeme
  dsimp only
  rw [hsame, hhead]

end Lines

section Ends

variable {before after : List Char}

-- A text is put in front of another one: it starts with a blank, or as the other one does.
def StartsWithBlank (next rest : List Char) : Prop :=
  next.head? = rest.head? ∧ rest ≠ [] ∨ next.head? = some ' ' ∧ rest.head?.any (!isBlank ·) = true

theorem StartsWithBlank.all {next rest : List Char} (h : StartsWithBlank next rest)
    {p : Char → Bool} (hp : p ' ' = true ∨ ∀ c, p c = true → isBlank c = true)
    (hrest : rest.head?.all p = true) : next.head?.all p = true := by
  rcases h with ⟨hhead, -⟩ | ⟨hhead, hany⟩
  · rwa [hhead]
  · rw [hhead, Option.all_some]
    rcases hp with hp | hp
    · exact hp
    · cases hfirst : rest.head? with
      | none =>
          rw [hfirst] at hany
          cases hany
      | some d =>
          rw [hfirst] at hrest hany
          simp [hp d hrest] at hany

theorem symbolEndsBefore_blank {rest next : List Char} {c : Char} {more : List Char}
    (h : symbolEndsBefore rest c more = true) (hslash : rest ≠ ['\\'])
    (hdots : next.take 2 ≠ ['.', '.']) (hnext : StartsWithBlank next rest) :
    symbolEndsBefore next c more = true := by
  have hne : rest ≠ [] := by
    rintro rfl
    rcases hnext with ⟨-, hne⟩ | ⟨-, hany⟩
    · exact hne rfl
    · cases hany
  have hfeed : rest.head?.all (· = '\n') = true → next.head?.all (· = '\n') = true :=
    hnext.all (.inr (by simp [isBlank]))
  revert h
  fun_cases symbolEndsBefore rest c more with
  | case1 => exact hnext.all (.inl (by decide))
  | case2 inner =>
      intro h
      have hend : ['*', '/'].isSuffixOf inner = true := by simpa [hne] using h
      simp [symbolEndsBefore, hend]
  | case3 more hempty hstar =>
      intro h
      rw [symbolEndsBefore.eq_3 _ _ hempty hstar]
      exact hfeed h
  | case4 =>
      intro h
      have hline : rest.head?.all (· = '\n') = true := by simpa [hslash] using h
      simp [symbolEndsBefore, hfeed hline]
  | case5 => exact id
  | case6 => exact id
  | case7 =>
      intro _
      simpa [symbolEndsBefore] using hdots
  | case8 c hline hhash hstring hchar hdot =>
      intro h
      rw [symbolEndsBefore.eq_8 _ _ hline hhash hstring hchar hdot]
      refine List.all_eq_true.mpr fun pair hpair => ?_
      have hrest := List.all_eq_true.mp h pair hpair
      rcases hnext with ⟨hhead, -⟩ | ⟨hhead, -⟩
      · rwa [hhead]
      · have hblank : pair.2.1 ≠ ' ' := by fin_cases hpair <;> decide
        simp [hhead, Ne.symm hblank]
  | case9 c more hcomment hblock hline hhash hstring hchar hdot hmore =>
      intro _
      rw [symbolEndsBefore.eq_9]
      all_goals assumption

theorem endsBefore_of_blank {rest next text : List Char} (h : endsBefore rest text = true)
    (hslash : rest ≠ ['\\']) (hdots : next.take 2 ≠ ['.', '.'])
    (hnext : StartsWithBlank next rest) : endsBefore next text = true := by
  cases text with
  | nil => rfl
  | cons c more =>
      rw [endsBefore] at h ⊢
      split
      · rfl
      · next hblank =>
        rw [if_neg hblank] at h
        split
        · next hletter =>
          rw [if_pos hletter] at h
          exact hnext.all (.inl (by decide)) h
        · next hletter =>
          rw [if_neg hletter] at h
          split
          · next hdigit =>
            rw [if_pos hdigit] at h
            exact hnext.all (.inl (by decide)) h
          · next hdigit =>
            rw [if_neg hdigit] at h
            exact symbolEndsBefore_blank h hslash hdots hnext

-- A piece that ends in a text also ends before a blank that is put in there, unless the text goes
-- on with the end of a line.
theorem endsBefore_blank {before after text : List Char}
    (h : endsBefore (before ++ after) text = true) (hslash : before ++ after ≠ ['\\'])
    (hafter : before = [] → after.head?.any (!isBlank ·) = true) (next : List Char) :
    endsBefore (before ++ ' ' :: next) text = true := by
  match before with
  | [] => exact endsBefore_of_blank h hslash (by simp) (.inr ⟨rfl, hafter rfl⟩)
  | [d] => exact endsBefore_of_blank h hslash (by simp) (.inl ⟨rfl, by simp⟩)
  | d :: e :: before =>
    have hsame := @endsBefore_take (d :: e :: before ++ after) (d :: e :: before ++ ' ' :: next) rfl
    rwa [hsame]

theorem lexeme_line {c : Char} (hc : c = '"' ∨ c = '\'') {line : List Char} (h : '\n' ∈ line)
    (rest : List Char) : lexeme c (line ++ rest) = lexeme c line := by
  rcases hc with rfl | rfl
  · rw [lexeme_string, lexeme_string, stringLength_line h]
  · rw [lexeme_quote, lexeme_quote, literalLexeme_line _ _ h]

theorem quote_of_not_closed {c : Char} {more : List Char} (h : ¬closedLiteral (c :: more) = true) :
    c = '"' ∨ c = '\'' := by
  by_contra hc
  rw [not_or] at hc
  refine h ?_
  unfold closedLiteral
  split <;> simp_all

-- A piece that is put in front of another text is the same there if it ends there, or if it is a
-- literal and the line ends in between.
theorem lexeme_before {c : Char} {more before after next : List Char} {kind : Option TokenKind}
    (h : lexeme c (more ++ (before ++ after)) = ⟨kind, more.length⟩) (hblank : isBlank c = false)
    (hliteral : closedLiteral (c :: more) = true ∨ '\n' ∈ before)
    (hends : closedLiteral (c :: more) = true → endsBefore (before ++ next) (c :: more) = true) :
    lexeme c (more ++ (before ++ next)) = ⟨kind, more.length⟩ := by
  by_cases hclosed : closedLiteral (c :: more) = true
  · exact lexeme_moved h hblank (hends hclosed)
  · have hline : '\n' ∈ more ++ before :=
      List.mem_append_right more (hliteral.resolve_left hclosed)
    have hc := quote_of_not_closed hclosed
    rw [← List.append_assoc, lexeme_line hc hline] at h ⊢
    exact h

theorem closedLiteral_of_skipped {c : Char} {more rest : List Char}
    (h : (lexeme c rest).kind = none) : closedLiteral (c :: more) = true := by
  by_contra hclosed
  rcases (lexed_lexeme c rest).skipped h with rfl | rfl | hblank
  · exact hclosed rfl
  · exact hclosed rfl
  · rcases quote_of_not_closed hclosed with rfl | rfl
    · exact absurd hblank (by decide)
    · exact absurd hblank (by decide)

end Ends

end Lexical

section Parts

variable {body : List Char}

theorem scanFrom_blockComment (hbody : ¬['*', '/'] <:+: body) (start : Nat)
    (lead rest : List Char) :
    scanFrom lexeme .eof start lead (blockComment body ++ rest) =
      scanFrom lexeme .eof (start + Text.byteLength (blockComment body))
        (lead ++ blockComment body) rest := by
  let more := '*' :: (' ' :: (body ++ [' ']) ++ ['*', '/'])
  have hparts : blockComment body = [' '] ++ ('/' :: more) ++ [' '] := by simp [blockComment, more]
  have hclean : ¬['*', '/'] <:+: ' ' :: (body ++ [' ']) := by
    rw [List.infix_cons_iff, not_or]
    exact ⟨by simp, not_infix_concat (by decide) hbody⟩
  have hcomment : lexeme '/' (more ++ ' ' :: rest) = ⟨none, more.length⟩ := by
    have hlength := blockCommentLength_closed hclean (' ' :: rest)
    simp only [more, List.cons_append, List.append_assoc, List.nil_append] at hlength ⊢
    rw [lexeme_block, hlength]
    simp
  have hspelled : blockComment body ++ rest = ' ' :: '/' :: (more ++ ' ' :: rest) := by
    simp [hparts]
  rw [hspelled, scanFrom_blank (by decide), scanFrom_skip hcomment, List.take_left, List.drop_left,
    scanFrom_blank (by decide), hparts]
  simp [Text.byteLength, Nat.add_assoc]

-- The text of a header up to a token.
def upTo (front : List Token) (token : Token) : List Char :=
  front.flatMap Token.spelled ++ token.lead

theorem upTo_nil (token : Token) : upTo [] token = token.lead := rfl

theorem upTo_cons (first : Token) (front : List Token) (token : Token) :
    upTo (first :: front) token = first.spelled ++ upTo front token := by
  rw [upTo, upTo, List.flatMap_cons, List.append_assoc]

-- The tokens of a text with a comment in front of one of them.
def withComment (body : List Char) (front : List Token) (token : Token) (rest : List Token) :
    List Token :=
  let length := Text.byteLength (blockComment body)
  front ++ { token.moved length with lead := token.lead ++ blockComment body } ::
    rest.map (Token.moved length)

-- A text that is read on at `start`, with `lead` skipped, is cut in two where the text of a token
-- begins. A comment there stands in front of the token and changes no other one.
structure CutAt (body : List Char) (start : Nat) (lead : List Char) (front : List Token)
    (token : Token) (rest : List Token) (before after : List Char) : Prop where
  before_eq : lead ++ before = upTo front token
  start_eq : token.start = start + Text.byteLength before
  first : rest = [] ∧ after = [] ∨ after.head?.any (!isBlank ·) = true
  commented : (scanFrom lexeme .eof start lead (before ++ (blockComment body ++ after))).toList =
    withComment body front token rest

namespace CutAt

variable {start : Nat} {lead before after more : List Char} {c : Char} {front rest : List Token}
  {token : Token} {kind : TokenKind}

theorem ending (hbody : ¬['*', '/'] <:+: body) :
    CutAt body start lead [] ⟨.eof, start, lead, []⟩ [] [] [] where
  before_eq := by rw [List.append_nil, upTo_nil]
  start_eq := rfl
  first := .inl ⟨rfl, rfl⟩
  commented := by
    rw [List.nil_append, scanFrom_blockComment hbody, scanFrom]
    rfl

theorem here {text : List Char} (hbody : ¬['*', '/'] <:+: body) (hblank : isBlank c = false)
    (hlexeme : lexeme c (more ++ text) = ⟨some kind, more.length⟩) :
    CutAt body start lead [] ⟨kind, start, lead, c :: more⟩
      (scanFrom lexeme .eof (start + Text.byteLength (c :: more)) [] text).toList []
      (c :: (more ++ text)) where
  before_eq := by rw [List.append_nil, upTo_nil]
  start_eq := rfl
  first := .inr (by simp [hblank])
  commented := by
    rw [List.nil_append, scanFrom_blockComment hbody, scanFrom_whole hlexeme, Nat.add_right_comm,
      Tokens.toList_cons, scanFrom_moved]
    rfl

-- Behind skipped text.
theorem skip (h : CutAt body (start + Text.byteLength (c :: more)) (lead ++ c :: more) front token
      rest before after)
    (hskip : scanFrom lexeme .eof start lead
        (c :: (more ++ (before ++ (blockComment body ++ after)))) =
      scanFrom lexeme .eof (start + Text.byteLength (c :: more)) (lead ++ c :: more)
        (before ++ (blockComment body ++ after))) :
    CutAt body start lead front token rest (c :: (more ++ before)) after where
  before_eq := by
    rw [← h.before_eq]
    simp
  start_eq := by rw [h.start_eq, ← List.cons_append, Text.byteLength_append, Nat.add_assoc]
  first := h.first
  commented := by rw [List.cons_append, List.append_assoc, hskip, h.commented]

-- Behind a token.
theorem cons
    (h : CutAt body (start + Text.byteLength (c :: more)) [] front token rest before after)
    (hsame : lexeme c (more ++ (before ++ (blockComment body ++ after))) =
      ⟨some kind, more.length⟩) :
    CutAt body start lead (⟨kind, start, lead, c :: more⟩ :: front) token rest
      (c :: (more ++ before)) after where
  before_eq := by
    rw [upTo_cons, ← h.before_eq, List.nil_append, ← List.cons_append]
    exact (List.append_assoc _ _ _).symm
  start_eq := by rw [h.start_eq, ← List.cons_append, Text.byteLength_append, Nat.add_assoc]
  first := h.first
  commented := by
    rw [List.cons_append, List.append_assoc, scanFrom_whole hsame, Tokens.toList_cons, h.commented]
    rfl

end CutAt

-- A literal without its closing quote takes in what follows on its line, so the line has to end in
-- front of the token.
def literalsEnd (token : Token) : List Token → Bool
  | [] => true
  | first :: front =>
    (closedLiteral first.text || (upTo front token).contains '\n') && literalsEnd token front

-- Nothing at the end of the text goes on with a comment behind it: no backslash, which may belong
-- to the line in front of it then, and, if the comment is put at the very end, no open piece.
def lastEnds (body text : List Char) (rest : List Token) : Bool :=
  (fragments text).getLast?.all fun piece =>
    piece.text ≠ ['\\'] && (!rest.isEmpty || endsBefore (blockComment body) piece.text)

section Pieces

variable {c : Char} {more text before after : List Char} {kind : Option TokenKind}
  {rest : List Token}

theorem lastEnds_tail (hlexeme : lexeme c (more ++ text) = ⟨kind, more.length⟩)
    (h : lastEnds body (c :: (more ++ text)) rest = true) : lastEnds body text rest = true := by
  unfold lastEnds at h ⊢
  rw [fragments_of_lexeme hlexeme, List.getLast?_cons] at h
  cases hpiece : (fragments text).getLast? with
  | none => rfl
  | some piece => simpa [hpiece] using h

theorem lexeme_before_comment (hlexeme : lexeme c (more ++ (before ++ after)) = ⟨kind, more.length⟩)
    (hblank : isBlank c = false)
    (hliteral : closedLiteral (c :: more) = true ∨ '\n' ∈ before)
    (hlast : lastEnds body (c :: (more ++ (before ++ after))) rest = true)
    (hfirst : rest = [] ∧ after = [] ∨ after.head?.any (!isBlank ·) = true) :
    lexeme c (more ++ (before ++ (blockComment body ++ after))) = ⟨kind, more.length⟩ := by
  refine lexeme_before hlexeme hblank hliteral fun hclosed => ?_
  have hends := endsBefore_of_lexeme hlexeme hclosed
  have hslash : before ++ after ≠ ['\\'] := by
    intro htext
    have htail := lastEnds_tail hlexeme hlast
    have hfragments : fragments ['\\'] = [⟨some .error, ['\\']⟩] := by
      have hlexeme : lexeme '\\' ([] ++ []) = ⟨some .error, 0⟩ := rfl
      have hpieces := fragments_of_lexeme hlexeme
      rwa [List.append_nil, fragments] at hpieces
    rw [htext, lastEnds, hfragments] at htail
    simp at htail
  by_cases hempty : before = [] ∧ after = []
  · obtain ⟨rfl, rfl⟩ := hempty
    have hrest : rest = [] := hfirst.elim And.left fun hany => by cases hany
    have hpiece : fragments (c :: (more ++ [])) = [⟨kind, c :: more⟩] := by
      rw [List.append_nil] at hlexeme
      rw [fragments_of_lexeme hlexeme, fragments]
    rw [List.nil_append, lastEnds, hpiece, hrest] at hlast
    simp only [List.getLast?_singleton, Option.all_some, Bool.and_eq_true, List.isEmpty_nil,
      Bool.not_true, Bool.false_or] at hlast
    simpa using hlast.2
  · refine endsBefore_blank hends hslash (fun hbefore => ?_) _
    refine hfirst.resolve_left fun hrest => hempty ⟨hbefore, hrest.2⟩

end Pieces

-- By induction on the pieces of the text. Those in front of the token end there with the comment
-- behind them as well, each because of where it ends now or because its line is over.
theorem exists_cutAt {start : Nat} {lead text : List Char} {front rest : List Token} {token : Token}
    (hbody : ¬['*', '/'] <:+: body)
    (htokens : (scanFrom lexeme .eof start lead text).toList = front ++ token :: rest)
    (hliterals : literalsEnd token front = true)
    (hlast : lastEnds body text rest = true) :
    ∃ before after, text = before ++ after ∧
      CutAt body start lead front token rest before after := by
  induction text using fragments_induction generalizing start lead front with
  | nil =>
      obtain ⟨rfl, htoken, rfl⟩ : front = [] ∧ token = ⟨.eof, start, lead, []⟩ ∧ rest = [] := by
        rw [scanFrom] at htokens
        cases front <;> simp_all [Tokens.toList]
      exact ⟨[], [], rfl, htoken ▸ .ending hbody⟩
  | cons c more text kind hlexeme ih =>
      have htail := lastEnds_tail hlexeme hlast
      cases kind with
      | none =>
          rw [scanFrom_skip hlexeme, List.take_left, List.drop_left] at htokens
          obtain ⟨before, after, rfl, hcut⟩ := ih htokens hliterals htail
          refine ⟨c :: (more ++ before), after, by simp, hcut.skip ?_⟩
          by_cases hblank : isBlank c = true
          · rw [← List.cons_append, scanFrom_blanks (blanks_of_lexeme hlexeme hblank).2]
          · have hsame := lexeme_before_comment hlexeme (by simpa using hblank)
              (.inl (closedLiteral_of_skipped (congrArg Lexeme.kind hlexeme))) hlast hcut.first
            rw [scanFrom_skip hsame, List.take_left, List.drop_left]
      | some kind =>
          have hblank : isBlank c = false := by
            by_contra hblank
            rw [lexeme_blank (by simpa using hblank)] at hlexeme
            cases hlexeme
          cases front with
          | nil =>
              rw [scanFrom_whole hlexeme] at htokens
              obtain ⟨rfl, rfl⟩ := List.cons.inj htokens
              exact ⟨[], c :: (more ++ text), rfl, .here hbody hblank hlexeme⟩
          | cons first front =>
              rw [scanFrom_whole hlexeme] at htokens
              obtain ⟨rfl, hothers⟩ := List.cons.inj htokens
              rw [literalsEnd, Bool.and_eq_true, Bool.or_eq_true,
                List.contains_iff_mem] at hliterals
              obtain ⟨before, after, rfl, hcut⟩ := ih hothers hliterals.2 htail
              have hbefore : before = upTo front token := hcut.before_eq
              refine ⟨c :: (more ++ before), after, by simp, hcut.cons ?_⟩
              exact lexeme_before_comment hlexeme hblank (hbefore ▸ hliterals.1) hlast hcut.first

end Parts

-- A place in a text, directly in front of a token, where a comment can be put.
structure CommentPlace (body before after : List Char) (front : List Token) (token : Token)
    (rest : List Token) : Prop where
  tokens : tokenize (before ++ after) = front ++ token :: rest
  start : token.start = Text.byteLength before
  clean : ¬['*', '/'] <:+: body
  literals : literalsEnd token front = true
  last : lastEnds body (before ++ after) rest = true

-- The comment is skipped in front of the token, and everything else is as before.
theorem CommentPlace.tokenize_commented {body before after : List Char} {front rest : List Token}
    {token : Token} (h : CommentPlace body before after front token rest) :
    tokenize (before ++ (blockComment body ++ after)) = withComment body front token rest := by
  obtain ⟨first, behind, htext, hcut⟩ := exists_cutAt h.clean h.tokens h.literals h.last
  have hstart : token.start = Text.byteLength first := hcut.start_eq.trans (Nat.zero_add _)
  obtain ⟨rfl, rfl⟩ := Text.append_inj_of_byteLength htext (h.start.symm.trans hstart)
  exact hcut.commented

end Reflection.Header
