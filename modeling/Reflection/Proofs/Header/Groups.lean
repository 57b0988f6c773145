import Reflection.Proofs.Header.Nested

namespace Reflection.Header

variable {ending opening : Token} {tokens rest : List Token} {error : ParseError}

-- The group that a token opens, as messages call it.
def Group.openedBy (opening : Token) : Group :=
  if opening.kind = .attrOpen then .attribute else .delimiters

-- Reading has come to the end of the tokens inside the group that `place` opens.
def ParseError.IsUnclosed (error : ParseError) (place : Token) : Prop :=
  error = .unterminated (.openedBy place) place.span

theorem attributeBlock_failed {text : List Char} (hopening : opening.kind = .attrOpen)
    (h : attributeBlock ending opening text tokens = .failed error rest) :
    rest = [] ∧ error.IsUnclosed opening := by
  induction tokens generalizing text with
  | nil =>
      cases h
      exact ⟨rfl, by rw [ParseError.IsUnclosed, Group.openedBy, if_pos hopening]⟩
  | cons token tokens ih =>
      rw [attributeBlock] at h
      split at h
      · cases h
      · exact ih h

-- By well-founded recursion: behind an attribute block, fewer tokens are left.
theorem nestedGroup_failed {tokens : List Token} {depth : Nat} (hopening : opening.kind ≠ .attrOpen)
    (h : nestedGroup ending opening depth tokens = .failed error rest) :
    rest = [] ∧ ∃ place, (place = opening ∨ place ∈ tokens ∧ place.kind = .attrOpen) ∧
      error.IsUnclosed place := by
  match tokens with
  | [] =>
      rw [nestedGroup] at h
      cases h
      refine ⟨rfl, opening, .inl rfl, ?_⟩
      rw [ParseError.IsUnclosed, Group.openedBy, if_neg hopening]
  | token :: tokens =>
      have hlater {depth : Nat} {after : List Token} (hafter : after <:+ tokens)
          (h : nestedGroup ending opening depth after = .failed error rest) :
          rest = [] ∧ ∃ place, (place = opening ∨ place ∈ token :: tokens ∧
            place.kind = .attrOpen) ∧ error.IsUnclosed place := by
        have := hafter.length_le
        obtain ⟨hrest, place, hplace, herror⟩ := nestedGroup_failed hopening h
        refine ⟨hrest, place, hplace.imp_right fun hmem => ⟨?_, hmem.2⟩, herror⟩
        exact List.mem_cons_of_mem token (hafter.subset hmem.1)
      rw [nestedGroup_cons] at h
      split at h
      · next hkind =>
        have hsuffix := attributeBlock_suffix ending token [] tokens
        cases hblock : attributeBlock ending token [] tokens with
        | done block after =>
            rw [hblock] at h hsuffix
            exact hlater hsuffix h
        | failed error after =>
            rw [hblock] at h
            cases h
            obtain ⟨hrest, herror⟩ := attributeBlock_failed hkind hblock
            exact ⟨hrest, token, .inr ⟨List.mem_cons_self, hkind⟩, herror⟩
      split at h
      · exact hlater (List.suffix_refl tokens) h
      split at h
      · split at h
        · cases h
        · exact hlater (List.suffix_refl tokens) h
      · exact hlater (List.suffix_refl tokens) h
termination_by tokens.length
decreasing_by simp only [List.length_cons]; omega

theorem skipGroup_failed (h : skipGroup ending opening tokens = .failed error rest) :
    rest = [] ∧ ∃ place, (place = opening ∨ place ∈ tokens ∧ place.kind = .attrOpen) ∧
      error.IsUnclosed place := by
  unfold skipGroup at h
  split at h
  · next hkind =>
    cases hblock : attributeBlock ending opening [] tokens with
    | done block after =>
        rw [hblock] at h
        cases h
    | failed error after =>
        rw [hblock] at h
        cases h
        obtain ⟨hrest, herror⟩ := attributeBlock_failed hkind hblock
        exact ⟨hrest, opening, .inl rfl, herror⟩
  · next hkind => exact nestedGroup_failed hkind h

-- Skipping stops right behind the token that closes the group, whatever follows it. It fails only
-- with no token left, and names the token that opens the group or an attribute block in it; and
-- what it leaves are in any case the last of the tokens that it was given.
theorem skipGroup_stops (ending opening : Token) (tokens : List Token) :
    (∀ group rest, tokens = group ++ rest → Closes opening group →
      skipGroup ending opening tokens = .done () rest) ∧
    (∀ error rest, skipGroup ending opening tokens = .failed error rest →
      rest = [] ∧ ∃ place, (place = opening ∨ place ∈ tokens ∧ place.kind = .attrOpen) ∧
        error.IsUnclosed place) ∧
    (skipGroup ending opening tokens).rest <:+ tokens := by
  refine ⟨?_, fun _ _ => skipGroup_failed, skipGroup_suffix ending opening tokens⟩
  rintro group rest rfl hcloses
  exact hcloses.skipGroup_append rest

def tokenOf (kind : TokenKind) : Token := ⟨kind, 0, [], []⟩

-- The tokens of `a [[ ) ]] { [ b ] } )`.
def mixedGroup : List Token :=
  [.ident, .attrOpen, .rParen, .rBracket, .rBracket, .lBrace, .lBracket, .ident, .rBracket,
    .rBrace, .rParen].map tokenOf

theorem closes_mixedGroup : Closes (tokenOf .lParen) mixedGroup := by
  have hparens : Delimiters (tokenOf .lParen) (tokenOf .rParen) := ⟨rfl, by decide, rfl⟩
  have hbraces : Delimiters (tokenOf .lBrace) (tokenOf .rBrace) := ⟨rfl, by decide, rfl⟩
  have hbrackets : Delimiters (tokenOf .lBracket) (tokenOf .rBracket) := ⟨rfl, by decide, rfl⟩
  have hinner : Balanced ([.lBrace, .lBracket, .ident, .rBracket, .rBrace].map tokenOf) :=
    .group hbraces (.group hbrackets (.token rfl rfl .nil) .nil) .nil
  have hpair : NoBracketPair [tokenOf .rParen] (tokenOf .rBracket) := by
    simp [NoBracketPair, tokenOf]
  exact .delimiters hparens (.token rfl rfl (.block rfl rfl rfl hpair hinner))

-- A group that is closed, with a brace behind it, and one with an attribute block that is not.
theorem skipGroup_stops_mixed :
    Closes (tokenOf .lParen) mixedGroup ∧
      skipGroup (tokenOf .eof) (tokenOf .lParen) (mixedGroup ++ [tokenOf .rBrace]) =
        .done () [tokenOf .rBrace] ∧
      skipGroup (tokenOf .eof) (tokenOf .lParen) [tokenOf .attrOpen] =
        .failed (.unterminated .attribute (tokenOf .attrOpen).span) [] ∧
      ∃ place, (place = tokenOf .lParen ∨ place ∈ [tokenOf .attrOpen] ∧ place.kind = .attrOpen) ∧
        (ParseError.unterminated .attribute (tokenOf .attrOpen).span).IsUnclosed place := by
  have hfailed : skipGroup (tokenOf .eof) (tokenOf .lParen) [tokenOf .attrOpen] =
      .failed (.unterminated .attribute (tokenOf .attrOpen).span) [] := by
    have hblock : (tokenOf .attrOpen).kind = .attrOpen := rfl
    rw [skipGroup, if_neg (by decide), nestedGroup_cons, if_pos hblock, attributeBlock,
      Read.bind_failed]
  exact ⟨closes_mixedGroup,
    (skipGroup_stops (tokenOf .eof) (tokenOf .lParen) (mixedGroup ++ [tokenOf .rBrace])).1 _ _ rfl
      closes_mixedGroup,
    hfailed,
    ((skipGroup_stops (tokenOf .eof) (tokenOf .lParen) [tokenOf .attrOpen]).2.1 _ _ hfailed).2⟩

end Reflection.Header
