import Reflection.Proofs.Header.Lexemes

namespace Reflection.Header.Lexical

theorem takeWhile_eq_of_length {p : Char → Bool} {more rest : List Char}
    (h : ((more ++ rest).takeWhile p).length = more.length) : (more ++ rest).takeWhile p = more :=
  (List.prefix_of_prefix_length_le (List.takeWhile_prefix p) (List.prefix_append more rest)
    h.le).eq_of_length h

theorem takeWhile_moved {p : Char → Bool} {more rest next : List Char}
    (h : (more ++ rest).takeWhile p = more) (hnext : next.head?.all (!p ·) = true) :
    (more ++ next).takeWhile p = more := by
  have hall : ∀ c ∈ more, p c = true := fun c hc => List.mem_takeWhile_imp (h.symm ▸ hc)
  rw [List.takeWhile_append_of_pos hall]
  cases next with
  | nil => simp
  | cons d next => simpa using hnext

theorem directiveLength_moved {more rest next : List Char}
    (h : directiveLength (more ++ rest) = more.length)
    (hnext : next.head?.all (· = '\n') = true ∨ next = ['\\']) :
    directiveLength (more ++ next) = more.length := by
  fun_induction directiveLength more with
  | case1 c more ih =>
      simp only [List.cons_append, directiveLength, List.length_cons, Nat.add_right_cancel_iff]
        at h ⊢
      exact ih h
  | case2 c more hpair hc =>
      rw [List.cons_append] at h
      rcases eq_or_ne c '\\' with rfl | hslash
      · cases more with
        | nil =>
            cases rest with
            | nil => simp [directiveLength] at h
            | cons d rest => simp [directiveLength] at h
        | cons d more => exact absurd rfl (hpair d more rfl)
      · rw [directiveLength.eq_2 _ _ fun _ _ h _ => hslash h, if_pos hc] at h
        simp at h
  | case3 c more hpair hc ih =>
      have hslash : c ≠ '\\' := fun h => hc (by simp [h])
      rw [List.cons_append, directiveLength.eq_2 _ _ fun _ _ h _ => hslash h, if_neg hc] at h ⊢
      rw [ih (Nat.succ.inj h), List.length_cons]
  | case4 =>
      rcases hnext with hnext | rfl
      · cases next with
        | nil => rfl
        | cons d next =>
            have hd : d = '\n' := by simpa using hnext
            simp [hd, directiveLength]
      · rfl

theorem head_of_takeWhile {p : Char → Bool} {more rest : List Char}
    (h : (more ++ rest).takeWhile p = more) : rest.head?.all (!p ·) = true := by
  have hall : ∀ c ∈ more, p c = true := fun c hc => List.mem_takeWhile_imp (h.symm ▸ hc)
  rw [List.takeWhile_append_of_pos hall, List.append_right_eq_self] at h
  cases rest with
  | nil => rfl
  | cons d rest =>
      by_cases hd : p d = true
      · rw [List.takeWhile_cons_of_pos hd] at h
        cases h
      · simpa using hd

theorem end_of_directiveLength {more rest : List Char}
    (h : directiveLength (more ++ rest) = more.length) :
    rest.head?.all (· = '\n') = true ∨ rest = ['\\'] := by
  fun_induction directiveLength more with
  | case1 c more ih =>
      simp only [List.cons_append, directiveLength, List.length_cons, Nat.add_right_cancel_iff] at h
      exact ih h
  | case2 c more hpair hc =>
      rw [List.cons_append] at h
      rcases eq_or_ne c '\\' with rfl | hslash
      · cases more with
        | nil =>
            cases rest with
            | nil => simp [directiveLength] at h
            | cons d rest => simp [directiveLength] at h
        | cons d more => exact absurd rfl (hpair d more rfl)
      · rw [directiveLength.eq_2 _ _ fun _ _ h _ => hslash h, if_pos hc] at h
        simp at h
  | case3 c more hpair hc ih =>
      have hslash : c ≠ '\\' := fun h => hc (by simp [h])
      rw [List.cons_append, directiveLength.eq_2 _ _ fun _ _ h _ => hslash h, if_neg hc] at h
      exact ih (Nat.succ.inj h)
  | case4 =>
      cases rest with
      | nil => exact .inl rfl
      | cons c rest =>
          rcases eq_or_ne c '\\' with rfl | hslash
          · cases rest with
            | nil => exact .inr rfl
            | cons d rest => simp [directiveLength] at h
          · rw [List.nil_append, directiveLength.eq_2 _ _ fun _ _ h _ => hslash h] at h
            by_cases hfeed : c = '\n'
            · simp [hfeed]
            · simp [hfeed, hslash] at h

theorem blockCommentLength_pos (c : Char) (text : List Char) :
    0 < blockCommentLength (c :: text) := by
  unfold blockCommentLength
  split <;> simp_all

-- Only a slash ends a comment.
theorem not_infix_concat {body : List Char} {c : Char} (hc : c ≠ '/')
    (hbody : ¬['*', '/'] <:+: body) : ¬['*', '/'] <:+: body ++ [c] := by
  rw [List.infix_concat_iff]
  rintro (⟨front, hfront⟩ | hwithin)
  · have hlast := congrArg List.getLast? hfront
    simp [Ne.symm hc] at hlast
  · exact hbody hwithin

theorem end_of_blockCommentLength {inner rest : List Char}
    (h : blockCommentLength (inner ++ rest) = inner.length) : ['*', '/'] <:+ inner ∨ rest = [] := by
  fun_induction blockCommentLength inner with
  | case1 tail =>
      have htail : tail = [] := by
        simpa [blockCommentLength] using h
      subst htail
      exact .inl List.suffix_rfl
  | case2 c inner hopen ih =>
      cases inner with
      | nil =>
          cases rest with
          | nil => exact .inr rfl
          | cons d rest =>
              have hopening : ∀ tail, c = '*' → d :: rest = '/' :: tail → False := by
                intro tail hc hd
                rw [hc, hd] at h
                cases h
              rw [List.cons_append, List.nil_append, blockCommentLength.eq_2 _ _ hopening] at h
              exact absurd (Nat.succ.inj h) (blockCommentLength_pos d rest).ne'
      | cons d inner =>
          have hpair : ∀ tail, c = '*' → d :: (inner ++ rest) = '/' :: tail → False :=
            fun tail hc hd => hopen inner hc (by rw [(List.cons.inj hd).1])
          rw [List.cons_append, List.cons_append, blockCommentLength.eq_2 _ _ hpair] at h
          exact (ih (Nat.succ.inj h)).imp_left fun hclosed => hclosed.trans (List.suffix_cons c _)
  | case3 =>
      cases rest with
      | nil => exact .inr rfl
      | cons d rest => exact absurd h (blockCommentLength_pos d rest).ne'

theorem blockCommentLength_moved {inner rest next : List Char}
    (h : blockCommentLength (inner ++ rest) = inner.length)
    (hnext : ['*', '/'] <:+ inner ∨ next = []) :
    blockCommentLength (inner ++ next) = inner.length := by
  fun_induction blockCommentLength inner with
  | case1 tail => simpa [blockCommentLength] using h
  | case2 c inner hopen ih =>
      cases inner with
      | nil =>
          rcases hnext with hnext | rfl
          · simpa using hnext.length_le
          · simp [blockCommentLength]
      | cons d inner =>
          have hpair : ∀ text : List Char, ∀ tail,
              c = '*' → d :: (inner ++ text) = '/' :: tail → False :=
            fun text tail hc hd => hopen inner hc (by rw [(List.cons.inj hd).1])
          rw [List.cons_append, List.cons_append, blockCommentLength.eq_2 _ _ (hpair _)] at h ⊢
          refine congrArg (· + 1) (ih (Nat.succ.inj h) (hnext.imp_left fun hclosed => ?_))
          rcases List.suffix_cons_iff.mp hclosed with heq | hclosed
          · exact absurd (List.cons.inj heq).2.symm (hopen [] (List.cons.inj heq).1.symm)
          · exact hclosed
  | case3 =>
      rcases hnext with hnext | rfl
      · simp at hnext
      · rfl

theorem closedLength?_append {quote : Char} (hslash : quote ≠ '\\') {text : List Char}
    {length : Nat} (h : closedLength? quote text = some length) (rest : List Char) :
    closedLength? quote (text ++ rest) = some length := by
  fun_induction closedLength? quote text generalizing length with
  | case1 => cases h
  | case2 => cases h
  | case3 c text hc ih =>
      obtain ⟨inner, hinner, rfl⟩ := Option.map_eq_some_iff.mp h
      rw [List.cons_append, List.cons_append, closedLength?, if_neg hc, ih hinner]
      rfl
  | case4 text hpair =>
      rw [List.cons_append, closedLength?.eq_3 _ _ _ fun _ _ hc _ => hslash hc, if_pos rfl, h]
  | case5 => cases h
  | case6 c text hpair hquote hfeed ih =>
      obtain ⟨inner, hinner, rfl⟩ := Option.map_eq_some_iff.mp h
      have hescape : ∀ d tail, c = '\\' → text ++ rest = d :: tail → False := by
        intro d tail hc htext
        cases text with
        | nil => cases hinner
        | cons e text => exact hpair e text hc rfl
      rw [List.cons_append, closedLength?.eq_3 _ _ _ hescape, if_neg hquote, if_neg hfeed,
        ih hinner]
      rfl

-- A piece with this text is not a literal without its closing quote.
def closedLiteral : List Char → Bool
  | '"' :: more => closedLength? '"' more = some more.length
  | '\'' :: more => (more.drop (literalElements '\'' false more)).head? = some '\''
  | _ => true

-- Where a piece ends that starts with a symbol. A literal has to be closed.
def symbolEndsBefore (next : List Char) : Char → List Char → Bool
  | '/', [] => next.head?.all fun d => d ≠ '/' && d ≠ '*'
  | '/', '*' :: inner => ['*', '/'].isSuffixOf inner || next.isEmpty
  | '/', _ => next.head?.all (· = '\n')
  -- a backslash that ends the text is no part of the line
  | '#', _ => next.head?.all (· = '\n') || next = ['\\']
  | '"', more => closedLiteral ('"' :: more)
  | '\'', more => closedLiteral ('\'' :: more)
  | '.', [] => next.take 2 ≠ ['.', '.']
  | c, [] => pairs.all fun pair => pair.1 ≠ c || next.head? ≠ some pair.2.1
  | _, _ => true

-- A piece with this text ends there if `next` follows it.
def endsBefore (next : List Char) : List Char → Bool
  | [] => true
  | c :: more =>
    if isBlank c then true
    else if isLetter c then next.head?.all fun d => !(isLetter d || d.isDigit)
    else if c.isDigit then next.head?.all (!isNumberPart ·)
    else symbolEndsBefore next c more

theorem lexeme_slash {rest : List Char} (h : rest.head?.all (fun d => d ≠ '/' && d ≠ '*') = true) :
    lexeme '/' rest = ⟨some .punct, 0⟩ := by
  unfold lexeme
  rw [if_neg (by decide), if_neg (by decide), if_neg (by decide)]
  split <;> first
    | rfl
    | contradiction

theorem lexeme_comment (rest : List Char) :
    lexeme '/' ('/' :: rest) =
      ⟨if rest.head? = some '/' then some .docComment else none, restOfLine ('/' :: rest)⟩ := by
  cases rest with
  | nil => rfl
  | cons d rest =>
      by_cases hd : d = '/'
      · subst hd
        rfl
      · rw [if_neg (by simpa using hd)]
        unfold lexeme
        rw [if_neg (by decide), if_neg (by decide), if_neg (by decide)]
        split <;> first
          | rfl
          | contradiction
          | simp_all

theorem lexeme_block (inner : List Char) :
    lexeme '/' ('*' :: inner) = ⟨none, blockCommentLength inner + 1⟩ := rfl

theorem pair_alone {c d : Char} {joined alone : TokenKind} {rest : List Char}
    {kind : Option TokenKind} (hpair : (c, d, joined, alone) ∈ pairs)
    (h : lexeme c rest = ⟨kind, 0⟩) : rest.head? ≠ some d := by
  intro hjoined
  rw [lexeme_pair hpair, if_pos hjoined] at h
  cases h

theorem pair_moved {c d : Char} {joined alone : TokenKind} {more rest next : List Char}
    {kind : Option TokenKind} (hpair : (c, d, joined, alone) ∈ pairs)
    (h : lexeme c (more ++ rest) = ⟨kind, more.length⟩) (hends : more = [] → next.head? ≠ some d) :
    lexeme c (more ++ next) = ⟨kind, more.length⟩ := by
  cases more with
  | nil =>
      rw [List.nil_append] at h ⊢
      rw [← h, lexeme_pair hpair, lexeme_pair hpair, if_neg (hends rfl),
        if_neg (pair_alone hpair h)]
  | cons e more =>
      rw [lexeme_pair hpair] at h ⊢
      exact h

theorem dot_alone {rest : List Char} {kind : Option TokenKind} (h : lexeme '.' rest = ⟨kind, 0⟩) :
    rest.take 2 ≠ ['.', '.'] := by
  intro hdots
  rw [lexeme_dot, if_pos hdots] at h
  cases h

theorem dot_moved {more rest next : List Char} {kind : Option TokenKind}
    (h : lexeme '.' (more ++ rest) = ⟨kind, more.length⟩)
    (hends : more = [] → next.take 2 ≠ ['.', '.']) :
    lexeme '.' (more ++ next) = ⟨kind, more.length⟩ := by
  match more with
  | [] =>
    rw [List.nil_append] at h ⊢
    rw [← h, lexeme_dot, lexeme_dot, if_neg (hends rfl), if_neg (dot_alone h)]
  | [d] =>
    rw [lexeme_dot] at h
    split at h <;> cases h
  | d :: e :: more =>
    rw [lexeme_dot] at h ⊢
    exact h

theorem slash_alone {rest : List Char} {kind : Option TokenKind} (h : lexeme '/' rest = ⟨kind, 0⟩) :
    rest.head?.all (fun d => d ≠ '/' && d ≠ '*') = true := by
  cases rest with
  | nil => rfl
  | cons d rest =>
      by_cases hslash : d = '/'
      · subst hslash
        rw [lexeme_comment, restOfLine, List.takeWhile_cons_of_pos (by decide)] at h
        cases h
      · by_cases hstar : d = '*'
        · subst hstar
          cases h
        · simp [hslash, hstar]

theorem takeWhile_of_comment {more rest : List Char} {kind : Option TokenKind}
    (h : lexeme '/' ('/' :: more ++ rest) = ⟨kind, ('/' :: more).length⟩) :
    ('/' :: more ++ rest).takeWhile (· ≠ '\n') = '/' :: more := by
  rw [List.cons_append, lexeme_comment, Lexeme.mk.injEq] at h
  exact takeWhile_eq_of_length h.2

theorem slash_moved {more rest next : List Char} {kind : Option TokenKind}
    (h : lexeme '/' (more ++ rest) = ⟨kind, more.length⟩)
    (hends : symbolEndsBefore next '/' more = true) :
    lexeme '/' (more ++ next) = ⟨kind, more.length⟩ := by
  cases more with
  | nil =>
      rw [List.nil_append] at h ⊢
      rw [← h, lexeme_slash hends, lexeme_slash (slash_alone h)]
  | cons d more =>
      by_cases hslash : d = '/'
      · subst hslash
        have hfeed : next.head?.all (· = '\n') = true := hends
        have hline := takeWhile_of_comment h
        have hmoved := @takeWhile_moved _ _ _ next hline (by simpa using hfeed)
        rw [List.cons_append, lexeme_comment, Lexeme.mk.injEq] at h ⊢
        refine ⟨?_, congrArg List.length hmoved⟩
        cases more with
        | cons e more => exact h.1
        | nil =>
            have hrest : rest.head? ≠ some '/' := by
              intro hhead
              obtain ⟨rest, rfl⟩ := List.head?_eq_some_iff.mp hhead
              simp at hline
            have hnext : next.head? ≠ some '/' := by
              intro hhead
              rw [hhead] at hfeed
              exact absurd hfeed (by decide)
            rw [← h.1, List.nil_append, List.nil_append, if_neg hrest, if_neg hnext]
      by_cases hstar : d = '*'
      · subst hstar
        rw [List.cons_append, lexeme_block, Lexeme.mk.injEq] at h ⊢
        have hclosed : ['*', '/'] <:+ more ∨ next = [] := by simpa [symbolEndsBefore] using hends
        exact ⟨h.1, congrArg (· + 1) (blockCommentLength_moved (Nat.succ.inj h.2) hclosed)⟩
      · rw [List.cons_append, lexeme_slash (by simp [hslash, hstar])] at h
        cases h

theorem endsBefore_of_slash {more rest : List Char} {kind : Option TokenKind}
    (h : lexeme '/' (more ++ rest) = ⟨kind, more.length⟩) :
    symbolEndsBefore rest '/' more = true := by
  cases more with
  | nil => exact slash_alone h
  | cons d more =>
      by_cases hslash : d = '/'
      · subst hslash
        have hfeed : rest.head?.all (· = '\n') = true := by
          simpa using head_of_takeWhile (takeWhile_of_comment h)
        exact hfeed
      by_cases hstar : d = '*'
      · subst hstar
        rw [List.cons_append, lexeme_block, Lexeme.mk.injEq] at h
        simpa [symbolEndsBefore] using end_of_blockCommentLength (Nat.succ.inj h.2)
      · rw [List.cons_append, lexeme_slash (by simp [hslash, hstar])] at h
        cases h

theorem lexeme_string (rest : List Char) :
    lexeme '"' rest = ⟨some .string, stringLength rest⟩ := rfl

theorem lexeme_quote (rest : List Char) :
    lexeme '\'' rest = literalLexeme '\'' false .char .error rest := rfl

-- What follows a piece makes no difference to it as long as it ends there.
theorem lexeme_moved {c : Char} {more rest next : List Char} {kind : Option TokenKind}
    (h : lexeme c (more ++ rest) = ⟨kind, more.length⟩) (hblank : isBlank c = false)
    (hends : endsBefore next (c :: more) = true) :
    lexeme c (more ++ next) = ⟨kind, more.length⟩ := by
  rw [endsBefore, hblank, if_neg (by decide)] at hends
  by_cases hletter : isLetter c = true
  · rw [if_pos hletter] at hends
    rw [lexeme_letter hletter, Lexeme.mk.injEq] at h ⊢
    have hmore := takeWhile_eq_of_length h.2
    rw [takeWhile_moved hmore hends, ← h.1, hmore]
    exact ⟨rfl, rfl⟩
  rw [if_neg hletter] at hends
  by_cases hdigit : c.isDigit = true
  · rw [Bool.not_eq_true] at hletter
    rw [if_pos hdigit] at hends
    rw [lexeme_digit hblank hletter hdigit, Lexeme.mk.injEq] at h ⊢
    rw [takeWhile_moved (takeWhile_eq_of_length h.2) hends]
    exact ⟨h.1, rfl⟩
  rw [if_neg hdigit] at hends
  rw [Bool.not_eq_true] at hletter hdigit
  by_cases hsymbol : c ∈ symbols
  · fin_cases hsymbol
    · refine pair_moved List.mem_cons_self h fun hnil => ?_
      subst hnil
      simpa [symbolEndsBefore, pairs] using hends
    · refine pair_moved (List.mem_cons_of_mem _ List.mem_cons_self) h fun hnil => ?_
      subst hnil
      simpa [symbolEndsBefore, pairs] using hends
    · refine dot_moved h fun hnil => ?_
      subst hnil
      simpa [symbolEndsBefore] using hends
    · refine pair_moved (List.mem_cons_of_mem _ (List.mem_cons_of_mem _ List.mem_cons_self)) h
        fun hnil => ?_
      subst hnil
      simpa [symbolEndsBefore, pairs] using hends
    · exact slash_moved h hends
    · rw [lexeme_hash, Lexeme.mk.injEq] at h ⊢
      exact ⟨h.1, directiveLength_moved h.2 (by simpa [symbolEndsBefore] using hends)⟩
    · have hclosed : closedLength? '"' more = some more.length := by
        simpa [symbolEndsBefore, closedLiteral] using hends
      have hlength (after : List Char) : stringLength (more ++ after) = more.length := by
        rw [stringLength, closedLength?_append (by decide) hclosed]
      rw [lexeme_string, hlength] at h ⊢
      exact h
    · have hclosed : (more.drop (literalElements '\'' false more)).head? = some '\'' := by
        simpa [symbolEndsBefore, closedLiteral] using hends
      rw [lexeme_quote, literalLexeme_append (by decide) hclosed] at h ⊢
      exact h
    all_goals exact h
  · rw [lexeme_plain hblank hletter hdigit hsymbol] at h ⊢
    exact h

-- A piece of a text ends before the rest of the text.
theorem endsBefore_of_lexeme {c : Char} {more rest : List Char} {kind : Option TokenKind}
    (h : lexeme c (more ++ rest) = ⟨kind, more.length⟩)
    (hclosed : closedLiteral (c :: more) = true) : endsBefore rest (c :: more) = true := by
  rw [endsBefore]
  by_cases hblank : isBlank c = true
  · rw [if_pos hblank]
  rw [if_neg hblank]
  rw [Bool.not_eq_true] at hblank
  by_cases hletter : isLetter c = true
  · rw [if_pos hletter]
    rw [lexeme_letter hletter, Lexeme.mk.injEq] at h
    exact head_of_takeWhile (takeWhile_eq_of_length h.2)
  rw [if_neg hletter]
  rw [Bool.not_eq_true] at hletter
  by_cases hdigit : c.isDigit = true
  · rw [if_pos hdigit]
    rw [lexeme_digit hblank hletter hdigit, Lexeme.mk.injEq] at h
    exact head_of_takeWhile (takeWhile_eq_of_length h.2)
  rw [if_neg hdigit]
  rw [Bool.not_eq_true] at hdigit
  by_cases hsymbol : c ∈ symbols
  · fin_cases hsymbol
    · cases more with
      | cons d more => rfl
      | nil => simpa [symbolEndsBefore, pairs] using pair_alone List.mem_cons_self h
    · cases more with
      | cons d more => rfl
      | nil =>
          simpa [symbolEndsBefore, pairs] using
            pair_alone (List.mem_cons_of_mem _ List.mem_cons_self) h
    · cases more with
      | cons d more => rfl
      | nil => simpa [symbolEndsBefore] using dot_alone h
    · cases more with
      | cons d more => rfl
      | nil =>
          simpa [symbolEndsBefore, pairs] using
            pair_alone (List.mem_cons_of_mem _ (List.mem_cons_of_mem _ List.mem_cons_self)) h
    · exact endsBefore_of_slash h
    · rw [lexeme_hash, Lexeme.mk.injEq] at h
      simpa [symbolEndsBefore] using end_of_directiveLength h.2
    · exact hclosed
    · exact hclosed
    all_goals
      cases more with
      | nil => rfl
      | cons d more => rfl
  · unfold symbolEndsBefore
    split <;> first
      | rfl
      | exact absurd (by decide) hsymbol
      | skip
    refine List.all_eq_true.mpr fun pair hpair => ?_
    have hne : pair.1 ≠ c := by
      rintro rfl
      fin_cases hpair <;> exact hsymbol (by decide)
    simp [hne]

theorem take_two_eq {rest next : List Char} (h : next.take 2 = rest.take 2) :
    next.head? = rest.head? ∧ (next.isEmpty = rest.isEmpty) ∧ (next = ['\\'] ↔ rest = ['\\']) := by
  match next, rest with
  | [], [] => simp
  | [c], [d] => simp [(List.cons.inj h).1]
  | c :: e :: next, d :: f :: rest => simpa using (List.cons.inj h).1
  | [], d :: rest => simp at h
  | c :: next, [] => simp at h
  | [c], d :: f :: rest => simp at h
  | c :: e :: next, [d] => simp at h

-- Two characters show where a piece ends.
theorem endsBefore_take {rest next : List Char} (htake : next.take 2 = rest.take 2)
    (text : List Char) : endsBefore next text = endsBefore rest text := by
  obtain ⟨hhead, hempty, hslash⟩ := take_two_eq htake
  have hsymbol (c : Char) (more : List Char) :
      symbolEndsBefore next c more = symbolEndsBefore rest c more := by
    unfold symbolEndsBefore
    simp only [hhead, hempty, hslash, htake]
  cases text with
  | nil => rfl
  | cons c more => rw [endsBefore, endsBefore, hhead, hsymbol]

end Reflection.Header.Lexical
