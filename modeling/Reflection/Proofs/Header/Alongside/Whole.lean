import Reflection.Proofs.Header.Alongside.Scopes
import Reflection.Proofs.Header.ErrorModes
import Reflection.Proofs.Header.Nested
import Reflection.Proofs.Scanning

namespace Reflection.Header

section Lookahead

-- Looking ahead sees the kinds of the tokens only.
def bare (token : Token) : Token := ⟨token.kind, 0, [], []⟩

theorem kindAt_bare (tokens : List Token) : kindAt (tokens.map bare) = kindAt tokens := by
  cases tokens <;> rfl

theorem pastTypeKey_bare (tokens : List Token) :
    pastTypeKey (tokens.map bare) = (pastTypeKey tokens).map bare := by
  cases tokens with
  | nil => rfl
  | cons token rest =>
      rw [List.map_cons, pastTypeKey, pastTypeKey, kindAt_bare, apply_ite (List.map bare),
        List.map_tail]
      rfl

theorem pastAttribute_bare (tokens : List Token) :
    pastAttribute (tokens.map bare) = (pastAttribute tokens).map bare := by
  induction tokens with
  | nil => rfl
  | cons token rest ih =>
      rw [List.map_cons, pastAttribute, pastAttribute, kindAt_bare, ih, apply_ite (List.map bare),
        List.map_tail]
      rfl

theorem pastParens_bare (depth : Nat) (tokens : List Token) :
    pastParens depth (tokens.map bare) = (pastParens depth tokens).map (List.map bare) := by
  fun_induction pastParens depth tokens with
  | case1 => rfl
  | case2 depth token rest hkind ih => simp only [List.map_cons, pastParens, bare, hkind, ih]
  | case3 depth token rest hkind hdepth =>
      simp only [List.map_cons, pastParens, bare, hkind, if_pos hdepth, Option.map_some]
  | case4 depth token rest hkind hdepth ih =>
      simp only [List.map_cons, pastParens, bare, hkind, if_neg hdepth, ih]
  | case5 depth token rest hopen hclose ih =>
      rw [List.map_cons, ← ih, pastParens]
      cases hkind : token.kind <;> simp_all [bare]

theorem pastAngles_bare (depth : Nat) (tokens : List Token) :
    pastAngles depth (tokens.map bare) = (pastAngles depth tokens).map (List.map bare) := by
  fun_induction pastAngles depth tokens with
  | case1 => rfl
  | case2 depth token rest hkind ih => simp only [List.map_cons, pastAngles, bare, hkind, ih]
  | case3 depth token rest hkind hdepth =>
      simp only [List.map_cons, pastAngles, bare, hkind, if_pos hdepth, Option.map_some]
  | case4 depth token rest hkind hdepth ih =>
      simp only [List.map_cons, pastAngles, bare, hkind, if_neg hdepth, ih]
  | case5 depth token rest hkind =>
      simp only [List.map_cons, pastAngles, bare, hkind, Option.map_none]
  | case6 depth token rest hkind =>
      simp only [List.map_cons, pastAngles, bare, hkind, Option.map_none]
  | case7 depth token rest hlt hgt hsemicolon hbrace ih =>
      rw [List.map_cons, ← ih, pastAngles]
      cases hkind : token.kind <;> simp_all [bare]

theorem pastSpecifiers_bare (tokens : List Token) :
    pastSpecifiers (tokens.map bare) = (pastSpecifiers tokens).map (List.map bare) := by
  match tokens with
  | [] =>
      rw [List.map_nil, pastSpecifiers]
      rfl
  | token :: rest =>
      rw [List.map_cons, pastSpecifiers_cons, pastSpecifiers_cons, kindAt_bare, ← List.map_tail]
      have hkind : (bare token).kind = token.kind := rfl
      rw [hkind]
      cases token.kind with
      | attrOpen =>
          have := pastAttribute_length rest
          dsimp only
          rw [pastAttribute_bare, pastSpecifiers_bare]
      | alignasKw =>
          dsimp only
          by_cases hopening : kindAt rest = .lParen
          · rw [if_pos hopening, if_pos hopening, pastParens_bare]
            cases hpast : pastParens 1 rest.tail with
            | none => rfl
            | some after =>
                have hlength := (pastParens_length hpast).trans (List.tail_suffix rest).length_le
                exact pastSpecifiers_bare after
          · rw [if_neg hopening, if_neg hopening, pastSpecifiers_bare]
      | _ => rfl
termination_by tokens.length
decreasing_by all_goals simp only [List.length_cons]; omega

theorem startsTypeDeclaration_bare (tokens : List Token) :
    startsTypeDeclaration (tokens.map bare) = startsTypeDeclaration tokens := by
  have hnamed (rest : List Token) :
      (rest.map bare).dropWhile isNamePart = (rest.dropWhile isNamePart).map bare := by
    rw [List.dropWhile_map]
    rfl
  unfold startsTypeDeclaration
  rw [pastTypeKey_bare, pastSpecifiers_bare]
  cases pastSpecifiers (pastTypeKey tokens) with
  | none => rfl
  | some rest =>
      dsimp only [Option.map_some]
      rw [hnamed]
      cases rest.dropWhile isNamePart with
      | nil => rfl
      | cons token inner =>
          have hkind : (bare token).kind = token.kind := rfl
          rw [List.map_cons]
          dsimp only
          rw [hkind]
          by_cases hangle : token.kind = .lt
          · rw [if_pos hangle, if_pos hangle, pastAngles_bare]
            cases pastAngles 1 inner with
            | none => rfl
            | some after =>
                dsimp only [Option.map_some]
                rw [kindAt_bare]
          · rw [if_neg hangle, if_neg hangle]
            rfl

theorem startsTypeDeclaration_congr {tokens others : List Token}
    (h : tokens.map Token.kind = others.map Token.kind) :
    startsTypeDeclaration tokens = startsTypeDeclaration others := by
  have hbare (list : List Token) :
      list.map bare = (list.map Token.kind).map fun kind => ⟨kind, 0, [], []⟩ := by
    rw [List.map_map]
    rfl
  rw [← startsTypeDeclaration_bare, ← @startsTypeDeclaration_bare others, hbare, hbare, h]

end Lookahead

-- The same tokens, with the same text skipped in front of those in attributes.
inductive SameTokens : List Token → List Token → Prop where
  | nil : SameTokens [] []
  | cons {token other : Token} {rest others : List Token} (halike : Alike token other)
      (hleads : token.kind = .attrOpen → Border.whole.Leads rest others)
      (hrest : SameTokens rest others) : SameTokens (token :: rest) (other :: others)

namespace SameTokens

variable {tokens others : List Token}

theorem kinds (h : SameTokens tokens others) :
    tokens.map Token.kind = others.map Token.kind := by
  induction h with
  | nil => rfl
  | cons halike _ _ ih => rw [List.map_cons, List.map_cons, halike.kind, ih]

theorem beside (h : SameTokens tokens others) : Border.whole.Beside tokens others := by
  induction h with
  | nil => exact .nil rfl rfl
  | cons halike hleads hrest ih =>
      exact .cons halike (fun _ => startsTypeDeclaration_congr (hrest.cons halike hleads).kinds)
        hleads ih

theorem leads_moved (distance : Nat) (tokens : List Token) :
    Border.whole.Leads tokens (tokens.map (Token.moved distance)) := by
  induction tokens with
  | nil => exact .border
  | cons token rest ih => exact .cons rfl ih

theorem moved (distance : Nat) (tokens : List Token) :
    SameTokens tokens (tokens.map (Token.moved distance)) := by
  induction tokens with
  | nil => exact .nil
  | cons token rest ih => exact .cons ⟨rfl, rfl⟩ (fun _ => leads_moved distance rest) ih

theorem refl (tokens : List Token) : SameTokens tokens tokens := by
  have hmoved := moved 0 tokens
  have hsame : tokens.map (Token.moved 0) = tokens := List.map_id tokens
  rwa [hsame] at hmoved

-- The scopes are read in the same way, but for the places of declarations and errors.
theorem scope (h : SameTokens tokens others) (ending finish : Token) (nested : Bool) :
    outcomeAs (List.map Entity.unplaced) (Header.scope .tolerant ending nested tokens).outcome =
        outcomeAs (List.map Entity.unplaced)
          (Header.scope .tolerant finish nested others).outcome ∧
      (Header.scope .tolerant ending nested tokens).recovered.map ParseError.unplaced =
        (Header.scope .tolerant finish nested others).recovered.map ParseError.unplaced := by
  have hscopes : ScopesAlong Border.whole ending finish nested tokens others :=
    scope_along nested _ _ h.beside
  cases hscopes with
  | beyond hlt => exact absurd hlt (Nat.not_lt_zero _)
  | stuck hends _ => exact hends.elim
  | closed hends _ => exact hends.elim
  | reached _ hends _ _ _ _ => exact hends.elim
  | beside hbeside => exact ⟨hbeside.outcome, hbeside.recovered⟩

end SameTokens

-- Both headers are read, and in the same way, but for the places of declarations and errors.
def ReadAlike (text other : List Char) : Prop :=
  ∃ parsed second, parse .tolerant text = .ok parsed ∧ parse .tolerant other = .ok second ∧
    parsed.tree.entities.map Entity.unplaced = second.tree.entities.map Entity.unplaced ∧
    parsed.recovered.map ParseError.unplaced = second.recovered.map ParseError.unplaced

theorem readAlike_of_scope {text other : List Char}
    (houtcome : outcomeAs (List.map Entity.unplaced)
        (scope .tolerant (scan text).ending false (scan text).items).outcome =
      outcomeAs (List.map Entity.unplaced)
        (scope .tolerant (scan other).ending false (scan other).items).outcome)
    (hrecovered : (scope .tolerant (scan text).ending false (scan text).items).recovered.map
        ParseError.unplaced =
      (scope .tolerant (scan other).ending false (scan other).items).recovered.map
        ParseError.unplaced) : ReadAlike text other := by
  obtain ⟨entities, hread⟩ := @scope_tolerant_ok (scan text).ending false (scan text).items
  obtain ⟨more, hother⟩ := @scope_tolerant_ok (scan other).ending false (scan other).items
  rw [hread, hother] at houtcome
  exact ⟨_, _, parse_of_ok hread, parse_of_ok hother, Except.ok.inj houtcome, hrecovered⟩

theorem SameTokens.parse {text other : List Char}
    (h : SameTokens (scan text).items (scan other).items) : ReadAlike text other := by
  obtain ⟨houtcome, hrecovered⟩ := h.scope (scan text).ending (scan other).ending false
  exact readAlike_of_scope houtcome hrecovered

end Reflection.Header
