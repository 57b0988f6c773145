import Reflection.Proofs.Header.Readers
import Reflection.Proofs.Header.Steps
import Reflection.Proofs.Header.Unplaced

namespace Reflection.Header

-- Tokens that are the same but for their places and the skipped text in front of them.
structure Alike (token other : Token) : Prop where
  kind : token.kind = other.kind
  text : token.text = other.text

-- Where the common tokens end: behind a token of certain kinds. What follows in the first text
-- closes the scope; what follows in the other one neither continues the last declaration with a
-- `;` nor comments on it.
structure Border where
  tail : List Token
  other : List Token
  ends : TokenKind → Prop
  ends_kind : ∀ kind, ends kind → kind = .semicolon ∨ kind = .rBrace
  tail_kind : ∀ kind, ends kind → kindAt tail = .rBrace
  other_kind : ends .rBrace → kindAt other ≠ .semicolon
  other_doc : (trailingDoc other).1 = none

namespace Border

-- Two texts without a border go on to their ends.
def whole : Border where
  tail := []
  other := []
  ends := fun _ => False
  ends_kind := fun _ h => h.elim
  tail_kind := fun _ h => h.elim
  other_kind := fun h => h.elim
  other_doc := rfl

-- In front of the tokens up to the first `]]`, or up to the border, the same text is skipped on
-- both sides. It belongs to the text of an attribute.
inductive Leads (border : Border) : List Token → List Token → Prop where
  | border : Leads border border.tail border.other
  | closed {token other : Token} {rest others : List Token} (hlead : token.lead = other.lead)
      (hclose : token.kind = .rBracket ∧ kindAt rest = .rBracket) :
      Leads border (token :: rest) (other :: others)
  | cons {token other : Token} {rest others : List Token} (hlead : token.lead = other.lead)
      (hrest : Leads border rest others) : Leads border (token :: rest) (other :: others)

-- The tokens that are left on both sides. That a type keyword starts a declaration is seen by
-- looking ahead, and the text of an attribute behind its `[[`, so both are part of the relation.
inductive Beside (border : Border) : List Token → List Token → Prop where
  | nil (htail : border.tail = []) (hother : border.other = []) : Beside border [] []
  | cons {token other : Token} {rest others : List Token} (halike : Alike token other)
      (hstarts : isTypeKey token.kind = true →
        startsTypeDeclaration (token :: rest) = startsTypeDeclaration (other :: others))
      (hleads : token.kind = .attrOpen → Leads border rest others)
      (hrest : Beside border rest others) : Beside border (token :: rest) (other :: others)
  | last {token other : Token} (halike : Alike token other) (hends : border.ends token.kind) :
      Beside border (token :: border.tail) (other :: border.other)

variable {border : Border} {token : Token} {tokens others rest : List Token}

theorem tail_eq_cons {kind : TokenKind} (h : border.ends kind) :
    ∃ brace rest, border.tail = brace :: rest ∧ brace.kind = .rBrace := by
  have hkind := border.tail_kind kind h
  cases htail : border.tail with
  | nil =>
      rw [htail] at hkind
      cases hkind
  | cons brace rest =>
      rw [htail] at hkind
      exact ⟨brace, rest, rfl, hkind⟩

theorem tail_ne_nil {kind : TokenKind} (h : border.ends kind) : border.tail ≠ [] := by
  obtain ⟨brace, rest, htail, _⟩ := tail_eq_cons h
  rw [htail]
  exact List.cons_ne_nil brace rest

theorem Beside.kindAt_eq (h : border.Beside tokens others) : kindAt tokens = kindAt others := by
  cases h with
  | nil _ _ => rfl
  | cons halike _ _ _ => exact halike.kind
  | last halike _ => exact halike.kind

theorem Beside.eq_nil (h : border.Beside [] others) : others = [] := by
  cases h
  rfl

-- The next token on both sides, and what is left behind it.
theorem Beside.next (h : border.Beside (token :: rest) others) :
    ∃ other after, others = other :: after ∧ Alike token other ∧
      (border.Beside rest after ∨
        border.ends token.kind ∧ rest = border.tail ∧ after = border.other) := by
  cases h with
  | cons halike _ _ hrest => exact ⟨_, _, rfl, halike, .inl hrest⟩
  | last halike hends => exact ⟨_, _, rfl, halike, .inr ⟨hends, rfl, rfl⟩⟩

-- Behind a token of another kind than those before the border, both sides go on.
theorem Beside.next_of_kind (h : border.Beside (token :: rest) others)
    (hsemicolon : token.kind ≠ .semicolon) (hbrace : token.kind ≠ .rBrace) :
    ∃ other after, others = other :: after ∧ Alike token other ∧ border.Beside rest after := by
  obtain ⟨other, after, rfl, halike, hrest | ⟨hends, _, _⟩⟩ := h.next
  · exact ⟨other, after, rfl, halike, hrest⟩
  · rcases border.ends_kind token.kind hends with hkind | hkind
    · exact absurd hkind hsemicolon
    · exact absurd hkind hbrace

theorem Beside.tail (h : border.Beside tokens others) (hsemicolon : kindAt tokens ≠ .semicolon)
    (hbrace : kindAt tokens ≠ .rBrace) : border.Beside tokens.tail others.tail := by
  cases tokens with
  | nil =>
      cases h with
      | nil htail hother => exact .nil htail hother
  | cons token rest =>
      obtain ⟨other, after, rfl, _, hrest⟩ := h.next_of_kind hsemicolon hbrace
      exact hrest

theorem Beside.length_add (h : border.Beside tokens others) :
    tokens.length + border.other.length = others.length + border.tail.length := by
  induction h with
  | nil htail hother => rw [htail, hother]
  | cons _ _ _ _ ih =>
      rw [List.length_cons, List.length_cons]
      omega
  | last _ _ =>
      rw [List.length_cons, List.length_cons]
      omega

theorem Beside.length_lt {kind : TokenKind} (h : border.Beside tokens others)
    (hends : border.ends kind) : border.tail.length < tokens.length := by
  induction h with
  | nil htail _ => exact absurd htail (border.tail_ne_nil hends)
  | cons _ _ _ _ ih => exact Nat.lt_succ_of_lt ih
  | last _ _ => exact Nat.lt_succ_self _

theorem Beside.tail_suffix (h : border.Beside tokens others) : border.tail <:+ tokens := by
  induction h with
  | nil htail _ => exact htail ▸ List.suffix_refl []
  | cons _ _ _ _ ih => exact ih.trans (List.suffix_cons _ _)
  | last _ _ => exact List.suffix_cons _ _

-- The token in front of the border is of the kinds that end there.
theorem Beside.ends_behind {kind : TokenKind} {last : Token} (h : border.Beside tokens others)
    (hends : border.ends kind) (hlast : last :: border.tail <:+ tokens) :
    border.ends last.kind := by
  induction h with
  | nil htail _ => exact absurd htail (border.tail_ne_nil hends)
  | cons _ _ _ hrest ih =>
      rcases List.suffix_cons_iff.mp hlast with heq | hlast
      · have hlt := hrest.length_lt hends
        rw [(List.cons.inj heq).2] at hlt
        exact absurd hlt (Nat.lt_irrefl _)
      · exact ih hlast
  | last _ hfinal =>
      rcases List.suffix_cons_iff.mp hlast with heq | hlast
      · rwa [(List.cons.inj heq).1]
      · exact absurd hlast.length_le (Nat.not_succ_le_self _)

-- The kinds of token before a border are no others.
theorem Beside.tail_of_kind {kind : TokenKind} {other : Token}
    (h : border.Beside (token :: rest) (other :: others)) (hkind : token.kind = kind)
    (hsemicolon : kind ≠ .semicolon) (hbrace : kind ≠ .rBrace) : border.Beside rest others := by
  subst hkind
  exact h.tail hsemicolon hbrace

theorem Beside.leads {other : Token} (h : border.Beside (token :: rest) (other :: others))
    (hkind : token.kind = .attrOpen) : border.Leads rest others := by
  cases h with
  | cons _ _ hleads _ => exact hleads hkind
  | last _ hends =>
      rw [hkind] at hends
      rcases border.ends_kind _ hends with hends | hends <;> cases hends

-- A reading has come too far to say anything about the other side: behind the border, or up to it
-- behind a brace, where the reader that goes on may not like what it finds.
def Lost (border : Border) (rest : List Token) : Prop :=
  rest.length < border.tail.length ∨
    border.ends .rBrace ∧ rest.length ≤ border.tail.length

theorem Lost.of_suffix (h : border.Lost tokens) (hsuffix : rest <:+ tokens) :
    border.Lost rest := by
  have hle := hsuffix.length_le
  rcases h with h | ⟨hends, h⟩
  · exact .inl (by omega)
  · exact .inr ⟨hends, by omega⟩

theorem lost_of_ends (hends : border.ends .rBrace) (hsuffix : rest <:+ border.tail) :
    border.Lost rest := .inr ⟨hends, hsuffix.length_le⟩

end Border

-- A reading from the border on breaks off: it goes behind the brace, or fails at it.
def Border.Breaks {α : Type} (border : Border) (read : Read α) : Prop :=
  read.rest.length < border.tail.length ∨
    ∃ error rest, read = .failed error rest ∧ rest.length ≤ border.tail.length

-- Both readings give the same, and leave the same.
inductive Read.Beside {α γ : Type} (border : Border) (value : α → γ) : Read α → Read α → Prop where
  | done {first second : α} {rest others : List Token} (hvalue : value first = value second)
      (hrest : border.Beside rest others) :
      Read.Beside border value (.done first rest) (.done second others)
  | failed {first second : ParseError} {rest others : List Token}
      (herror : first.unplaced = second.unplaced) (hrest : border.Beside rest others) :
      Read.Beside border value (.failed first rest) (.failed second others)

-- What holds of a reader inside a declaration.
def Read.Tracks {α γ : Type} (border : Border) (value : α → γ) (read other : Read α) : Prop :=
  border.Lost read.rest ∨ Read.Beside border value read other

-- What holds of a reader that may end a declaration: it may come right to the border, on both
-- sides, behind a token of these kinds.
inductive Read.Follows {α γ : Type} (border : Border) (kinds : TokenKind → Prop) (value : α → γ) :
    Read α → Read α → Prop where
  | beyond {read other : Read α} (h : read.rest.length < border.tail.length) :
      Read.Follows border kinds value read other
  | stuck {error : ParseError} {rest : List Token} {other : Read α} (hends : border.ends .rBrace)
      (h : rest.length ≤ border.tail.length) :
      Read.Follows border kinds value (.failed error rest) other
  | beside {read other : Read α} (h : Read.Beside border value read other) :
      Read.Follows border kinds value read other
  | finished {kind : TokenKind} {first second : α} (hends : border.ends kind) (hkind : kinds kind)
      (hvalue : value first = value second) :
      Read.Follows border kinds value (.done first border.tail) (.done second border.other)

section Combinators

variable {α β γ δ : Type} {border : Border} {kinds : TokenKind → Prop} {value : α → γ}
  {result : β → δ} {read other : Read α} {next following : α → List Token → Read β}

-- What the second of two readings leaves, the first one has left before.
theorem Read.rest_bind_suffix (hsuffix : ∀ first after, (next first after).rest <:+ after) :
    (read.bind next).rest <:+ read.rest := by
  cases read with
  | done first after => exact hsuffix first after
  | failed error after => exact List.suffix_refl after

theorem Read.Beside.tracks (h : Read.Beside border value read other) :
    read.Tracks border value other := .inr h

theorem Read.Follows.of_breaks (hends : border.ends .rBrace) (h : border.Breaks read) :
    read.Follows border kinds value other := by
  rcases h with hlt | ⟨error, rest, rfl, hle⟩
  · exact .beyond hlt
  · exact .stuck hends hle

-- Behind a brace at the border nothing more is said of a reader inside a declaration.
theorem Read.Follows.tracks (h : read.Follows border (· = .rBrace) value other) :
    read.Tracks border value other := by
  cases h with
  | beyond h => exact .inl (.inl h)
  | stuck hends h => exact .inl (.inr ⟨hends, h⟩)
  | beside h => exact .inr h
  | finished hends hkind _ => exact .inl (.inr ⟨hkind ▸ hends, Nat.le_refl _⟩)

theorem Read.Tracks.map (f g : α → β)
    (hresult : ∀ first second, value first = value second → result (f first) = result (g second))
    (h : read.Tracks border value other) : (read.map f).Tracks border result (other.map g) := by
  rcases h with hlost | hbeside
  · left
    rwa [Read.rest_map]
  · right
    cases hbeside with
    | done hvalue hrest => exact .done (hresult _ _ hvalue) hrest
    | failed herror hrest => exact .failed herror hrest

theorem Read.Follows.map (f g : α → β)
    (hresult : ∀ first second, value first = value second → result (f first) = result (g second))
    (h : read.Follows border kinds value other) :
    (read.map f).Follows border kinds result (other.map g) := by
  cases h with
  | beyond h => exact .beyond (by rwa [Read.rest_map])
  | stuck hends h => exact .stuck hends h
  | finished hends hkind hvalue => exact .finished hends hkind (hresult _ _ hvalue)
  | beside h =>
      cases h with
      | done hvalue hrest => exact .beside (.done (hresult _ _ hvalue) hrest)
      | failed herror hrest => exact .beside (.failed herror hrest)

-- One reading after another. What the first one leaves is no longer than what it was given, which
-- the second one may need to know about itself.
theorem Read.Tracks.bind {bound : Nat} (hle : read.rest.length ≤ bound)
    (hsuffix : ∀ first after, (next first after).rest <:+ after)
    (hnext : ∀ first second after others, after.length ≤ bound → value first = value second →
      border.Beside after others →
      (next first after).Tracks border result (following second others))
    (h : read.Tracks border value other) :
    (read.bind next).Tracks border result (other.bind following) := by
  rcases h with hlost | hbeside
  · exact .inl (hlost.of_suffix (Read.rest_bind_suffix hsuffix))
  · cases hbeside with
    | done hvalue hrest => exact hnext _ _ _ _ hle hvalue hrest
    | failed herror hrest => exact .inr (.failed herror hrest)

theorem Read.Beside.follow {bound : Nat} (hle : read.rest.length ≤ bound)
    (hnext : ∀ first second after others, after.length ≤ bound → value first = value second →
      border.Beside after others →
      (next first after).Follows border kinds result (following second others))
    (h : Read.Beside border value read other) :
    (read.bind next).Follows border kinds result (other.bind following) := by
  cases h with
  | done hvalue hrest => exact hnext _ _ _ _ hle hvalue hrest
  | failed herror hrest => exact .beside (.failed herror hrest)

-- A reading that never comes to the border, and another one behind it.
theorem Read.Follows.bind {bound : Nat} (hle : read.rest.length ≤ bound)
    (hsuffix : ∀ first after, (next first after).rest <:+ after)
    (hnext : ∀ first second after others, after.length ≤ bound →
      value first = value second → border.Beside after others →
      (next first after).Follows border kinds result (following second others))
    (h : read.Follows border (fun _ => False) value other) :
    (read.bind next).Follows border kinds result (other.bind following) := by
  cases h with
  | beyond h => exact .beyond (Nat.lt_of_le_of_lt (Read.rest_bind_suffix hsuffix).length_le h)
  | stuck hends h => exact .stuck hends h
  | finished _ hkind _ => exact hkind.elim
  | beside h => exact h.follow hle hnext

-- The second reading may end the declaration. If the first one has come to the border already, it
-- must not succeed.
theorem Read.Tracks.follow {tokens others : List Token} (hbeside : border.Beside tokens others)
    (hread : read.rest <:+ tokens) (hsuffix : ∀ first after, (next first after).rest <:+ after)
    (hbreaks : ∀ first, border.ends .rBrace → border.Breaks (next first border.tail))
    (hnext : ∀ first second after others, after.length ≤ tokens.length →
      value first = value second → border.Beside after others →
      (next first after).Follows border kinds result (following second others))
    (h : read.Tracks border value other) :
    (read.bind next).Follows border kinds result (other.bind following) := by
  rcases h with (hlt | ⟨hends, hle⟩) | hbeside
  · exact .beyond (Nat.lt_of_le_of_lt (Read.rest_bind_suffix hsuffix).length_le hlt)
  · cases read with
    | failed error after => exact .stuck hends hle
    | done first after =>
        by_cases heq : after = border.tail
        · rw [heq]
          exact .of_breaks hends (hbreaks first hends)
        · have hafter := List.suffix_of_suffix_length_le hread hbeside.tail_suffix hle
          have hlt : after.length < border.tail.length :=
            Nat.lt_of_le_of_ne hle fun hlength => heq (hafter.eq_of_length hlength)
          exact .beyond (Nat.lt_of_le_of_lt (hsuffix first after).length_le hlt)
  · exact hbeside.follow hread.length_le hnext

-- The first reading may come to the border behind a brace, and the second one finds it there.
theorem Read.Follows.follow {bound : Nat} (hle : read.rest.length ≤ bound)
    (hsuffix : ∀ first after, (next first after).rest <:+ after)
    (hfinished : ∀ first second, border.ends .rBrace → value first = value second →
      (next first border.tail).Follows border kinds result (following second border.other))
    (hnext : ∀ first second after others, after.length ≤ bound →
      value first = value second → border.Beside after others →
      (next first after).Follows border kinds result (following second others))
    (h : read.Follows border (· = .rBrace) value other) :
    (read.bind next).Follows border kinds result (other.bind following) := by
  cases h with
  | beyond h => exact .beyond (Nat.lt_of_le_of_lt (Read.rest_bind_suffix hsuffix).length_le h)
  | stuck hends h => exact .stuck hends h
  | finished hends hkind hvalue => exact hfinished _ _ (hkind ▸ hends) hvalue
  | beside h => exact h.follow hle hnext

end Combinators

-- What holds of a reader of whole declarations.
abbrev Read.Ends {α γ : Type} (border : Border) (value : α → γ) (read other : Read α) : Prop :=
  read.Follows border (fun _ => True) value other

end Reflection.Header
