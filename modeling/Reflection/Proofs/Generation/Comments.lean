import Reflection.Generation
import Reflection.Proofs.Header.Alongside.Whole
import Reflection.Proofs.Header.Comments
import Reflection.Proofs.Selection.Unplaced

namespace Reflection

namespace Header

-- Is there the `]]` that ends an attribute?
def closesAttribute : List Token → Bool
  | [] => false
  | token :: rest => (token.kind = .rBracket && kindAt rest = .rBracket) || closesAttribute rest

-- Every attribute in front of a token is closed there, with the token itself if need be.
def attributesEnd (token : Token) : List Token → Bool
  | [] => true
  | first :: front =>
    (first.kind ≠ .attrOpen || closesAttribute (front ++ [token])) && attributesEnd token front

section Leads

variable {token other : Token} {front rest others : List Token}

-- Behind the end of an attribute the skipped text does not matter.
theorem leads_of_closed (h : closesAttribute (front ++ [token]) = true) :
    Border.whole.Leads (front ++ token :: rest) (front ++ other :: others) := by
  induction front with
  | nil => simp [closesAttribute, kindAt] at h
  | cons first front ih =>
      rw [List.cons_append, closesAttribute, Bool.or_eq_true] at h
      rcases h with hclose | hclosed
      · obtain ⟨hfirst, hnext⟩ :
            first.kind = .rBracket ∧ kindAt (front ++ [token]) = .rBracket := by
          simpa using hclose
        refine .closed rfl ⟨hfirst, ?_⟩
        cases front with
        | nil => exact hnext
        | cons second front => exact hnext
      · exact .cons rfl (ih hclosed)

theorem sameTokens_commented (distance : Nat) (lead : List Char)
    (h : attributesEnd token front = true) :
    SameTokens (front ++ token :: rest)
      (front ++ { token.moved distance with lead := lead } :: rest.map (Token.moved distance)) := by
  induction front with
  | nil =>
      exact .cons ⟨rfl, rfl⟩ (fun _ => SameTokens.leads_moved distance rest) (.moved distance rest)
  | cons first front ih =>
      rw [attributesEnd, Bool.and_eq_true, Bool.or_eq_true, decide_eq_true_eq] at h
      exact .cons ⟨rfl, rfl⟩ (fun hopen => leads_of_closed (h.1.resolve_left (absurd hopen)))
        (ih h.2)

end Leads

theorem items_eq_dropLast (text : List Char) : (scan text).items = (tokenize text).dropLast :=
  (List.dropLast_concat).symm

theorem CommentPlace.sameTokens {body before after : List Char} {front rest : List Token}
    {token : Token} (h : CommentPlace body before after front token rest)
    (houtside : attributesEnd token front = true) :
    SameTokens (scan (before ++ after)).items
      (scan (before ++ (blockComment body ++ after))).items := by
  rw [items_eq_dropLast, items_eq_dropLast, h.tokenize_commented, h.tokens, withComment]
  rcases List.eq_nil_or_concat rest with rfl | ⟨others, last, rfl⟩
  · rw [List.map_nil, List.dropLast_concat, List.dropLast_concat]
    exact .refl front
  · rw [List.concat_eq_append, List.map_append, List.map_singleton, ← List.cons_append,
      ← List.cons_append, ← List.append_assoc, ← List.append_assoc, List.dropLast_concat,
      List.dropLast_concat]
    exact sameTokens_commented _ _ houtside

end Header

namespace GenerationError

-- The findings without the places of the declarations.
def unplaced : GenerationError → GenerationError
  | .selection findings => .selection (findings.map Finding.unplaced)
  | .missingInput path => .missingInput path
  | .source error => .source error
  | .artifact error => .artifact error

end GenerationError

-- Generating from two headers that declare the same.
theorem generateFromText_unplaced {text other : String} {parsed second : Header.Parsed}
    (hparsed : Header.parse .tolerant text.toList = .ok parsed)
    (hsecond : Header.parse .tolerant other.toList = .ok second)
    (hsame : parsed.tree.entities.map Entity.unplaced = second.tree.entities.map Entity.unplaced)
    (name : String) (selection : SelectionOptions) (format : OutputFormat) :
    (generateFromText name text selection format).mapError GenerationError.unplaced =
      (generateFromText name other selection format).mapError GenerationError.unplaced := by
  have houtcome := select_unplaced parsed.tree selection
  have hother := select_unplaced second.tree selection
  have hselected : outcomeUnplaced (parsed.tree.select selection).outcome =
      outcomeUnplaced (second.tree.select selection).outcome := by
    rw [← houtcome, ← hother, hsame]
    rfl
  unfold generateFromText
  rw [hparsed, hsecond]
  dsimp only
  cases hfirst : (parsed.tree.select selection).outcome with
  | error findings =>
      cases hlast : (second.tree.select selection).outcome with
      | ok selected =>
          rw [hfirst, hlast] at hselected
          cases hselected
      | error others =>
          rw [hfirst, hlast] at hselected
          exact congrArg (fun findings => Except.error (GenerationError.selection findings))
            (Except.error.inj hselected)
  | ok selected =>
      cases hlast : (second.tree.select selection).outcome with
      | error findings =>
          rw [hfirst, hlast] at hselected
          cases hselected
      | ok others =>
          rw [hfirst, hlast] at hselected
          have htypes := congrArg Selected.types (Except.ok.inj hselected)
          exact congrArg
            (fun types => Except.ok (Artifact.render format .default ⟨name, none, types⟩)) htypes

-- A block comment that is put directly in front of a token, outside of attributes, changes nothing
-- in what is generated, whatever is selected and in whatever format.
theorem generateFromText_commented {body before after : List Char}
    {front rest : List Header.Token} {token : Header.Token}
    (h : Header.CommentPlace body before after front token rest)
    (houtside : Header.attributesEnd token front = true) (name : String)
    (selection : SelectionOptions) (format : OutputFormat) :
    (generateFromText name (String.ofList (before ++ (Header.blockComment body ++ after)))
        selection format).mapError GenerationError.unplaced =
      (generateFromText name (String.ofList (before ++ after)) selection format).mapError
        GenerationError.unplaced := by
  obtain ⟨parsed, second, hparsed, hsecond, hentities, -⟩ := (h.sameTokens houtside).parse
  rw [← @String.toList_ofList (before ++ _)] at hparsed hsecond
  exact generateFromText_unplaced hsecond hparsed hentities.symm name selection format

section Examples

def attributedTokens : List Header.Token := Header.tokenize "struct [[refl]] S {};".toList

-- In front of the name of a struct, with a line end in the comment.
theorem generateFromText_commented_name :
    ∃ front token rest,
      Header.CommentPlace "two\nlines".toList "struct [[refl]] ".toList "S {};".toList front token
        rest ∧
      Header.attributesEnd token front = true ∧
      (generateFromText "s.hpp" "struct [[refl]]  /* two\nlines */ S {};" .default .json).mapError
          GenerationError.unplaced =
        (generateFromText "s.hpp" "struct [[refl]] S {};" .default .json).mapError
          GenerationError.unplaced := by
  let token : Header.Token := ⟨.ident, 16, [' '], ['S']⟩
  have hplace : Header.CommentPlace "two\nlines".toList "struct [[refl]] ".toList "S {};".toList
      (attributedTokens.take 5) token (attributedTokens.drop 6) :=
    ⟨by decide +kernel, by decide +kernel, by decide +kernel, by decide +kernel, by decide +kernel⟩
  have houtside : Header.attributesEnd token (attributedTokens.take 5) = true := by decide +kernel
  refine ⟨_, token, _, hplace, houtside, ?_⟩
  have hsame := generateFromText_commented hplace houtside "s.hpp" .default .json
  have hcommented : "struct [[refl]] ".toList ++ (Header.blockComment "two\nlines".toList ++
      "S {};".toList) = "struct [[refl]]  /* two\nlines */ S {};".toList := by decide +kernel
  have hplain : "struct [[refl]] ".toList ++ "S {};".toList = "struct [[refl]] S {};".toList := by
    decide +kernel
  rwa [hcommented, hplain, String.ofList_toList, String.ofList_toList] at hsame

-- In an attribute the comment is malformed metadata, and the struct is not selected any more.
theorem generateFromText_ne_commented_key :
    (∃ front token rest,
      Header.CommentPlace ['c'] "struct [[".toList "refl]] S {};".toList front token rest) ∧
      (Header.parse .fatal "struct [[refl]] S {};".toList).toOption.isSome ∧
      "struct [[".toList ++ (Header.blockComment ['c'] ++ "refl]] S {};".toList) =
        "struct [[ /* c */ refl]] S {};".toList ∧
      (generateFromText "s.hpp" "struct [[ /* c */ refl]] S {};" .default .json).toOption ≠
        (generateFromText "s.hpp" "struct [[refl]] S {};" .default .json).toOption :=
  ⟨⟨attributedTokens.take 2, ⟨.ident, 9, [], "refl".toList⟩, attributedTokens.drop 3,
    by decide +kernel, by decide +kernel, by decide +kernel, by decide +kernel, by decide +kernel⟩,
    by decide +kernel, by decide +kernel, by decide +kernel⟩

end Examples

end Reflection
