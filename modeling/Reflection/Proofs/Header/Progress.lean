import Reflection.Proofs.Header.ErrorModes
import Reflection.Proofs.Header.Loops
import Reflection.Proofs.Header.Nested
import Reflection.Proofs.Placement

namespace Reflection.Header

section Lookahead

-- Counting brackets: opening and closing ones change the depth by one. There is no depth below
-- zero.
def depthAfter? (opening closing kind : TokenKind) (depth : Nat) : Option Nat :=
  if kind = opening then some (depth + 1)
  else if kind = closing then if depth = 0 then none else some (depth - 1)
  else some depth

-- The lookahead with such counts. It starts at an opening bracket, at depth zero, and is behind the
-- group when the depth is zero again; the outer option is for a depth below zero.
def pastParens? (depth : Nat) : List Token → Option (Option (List Token))
  | [] => some none
  | token :: rest =>
    (depthAfter? .lParen .rParen token.kind depth).bind fun depth =>
      if depth = 0 then some (some rest) else pastParens? depth rest

def pastAngles? (depth : Nat) : List Token → Option (Option (List Token))
  | [] => some none
  | token :: rest =>
    if token.kind = .semicolon ∨ token.kind = .lBrace then some none
    else
      (depthAfter? .lt .gt token.kind depth).bind fun depth =>
        if depth = 0 then some (some rest) else pastAngles? depth rest

theorem depthAfter?_closing {opening closing : TokenKind} (hne : closing ≠ opening) {depth : Nat}
    (hdepth : 0 < depth) : depthAfter? opening closing closing depth = some (depth - 1) := by
  rw [depthAfter?, if_neg hne, if_pos rfl, if_neg (Nat.ne_of_gt hdepth)]

-- One deep, the closing bracket ends the group; deeper, the count goes on above zero.
theorem closing_cases {α : Type} {depth : Nat} (hdepth : 0 < depth)
    {checked : Nat → Option (Option α)} {plain : Nat → Option α} {value : α}
    (h : ∀ {depth}, 0 < depth → checked depth = some (plain depth)) :
    (if depth - 1 = 0 then some (some value) else checked (depth - 1)) =
      some (if depth ≤ 1 then some value else plain (depth - 1)) := by
  by_cases hone : depth ≤ 1
  · rw [if_pos hone, if_pos (by omega)]
  · rw [if_neg hone, if_neg (by omega), h (by omega)]

theorem pastParens?_eq {depth : Nat} (hdepth : 0 < depth) (tokens : List Token) :
    pastParens? depth tokens = some (pastParens depth tokens) := by
  induction tokens generalizing depth with
  | nil => rfl
  | cons token rest ih =>
      rw [pastParens?, pastParens]
      cases token.kind with
      | lParen => exact ih (Nat.succ_pos depth)
      | rParen =>
          rw [depthAfter?_closing (by decide) hdepth, Option.bind_some]
          exact closing_cases hdepth fun hdepth => ih hdepth
      | _ => exact (if_neg (Nat.ne_of_gt hdepth)).trans (ih hdepth)

theorem pastAngles?_eq {depth : Nat} (hdepth : 0 < depth) (tokens : List Token) :
    pastAngles? depth tokens = some (pastAngles depth tokens) := by
  induction tokens generalizing depth with
  | nil => rfl
  | cons token rest ih =>
      rw [pastAngles?, pastAngles]
      cases token.kind with
      | lt => exact ih (Nat.succ_pos depth)
      | gt =>
          rw [if_neg (by decide), depthAfter?_closing (by decide) hdepth, Option.bind_some]
          exact closing_cases hdepth fun hdepth => ih hdepth
      | semicolon | lBrace => rfl
      | _ => exact (if_neg (Nat.ne_of_gt hdepth)).trans (ih hdepth)

-- The bracket that the lookahead starts at is the first one of the group.
theorem pastParens?_opening {token : Token} (h : token.kind = .lParen) (rest : List Token) :
    pastParens? 0 (token :: rest) = some (pastParens 1 rest) := by
  rw [pastParens?, h]
  exact pastParens?_eq Nat.one_pos rest

theorem pastAngles?_opening {token : Token} (h : token.kind = .lt) (rest : List Token) :
    pastAngles? 0 (token :: rest) = some (pastAngles 1 rest) := by
  rw [pastAngles?, h]
  exact pastAngles?_eq Nat.one_pos rest

theorem pastAttribute_suffix (tokens : List Token) : pastAttribute tokens <:+ tokens := by
  induction tokens with
  | nil => exact List.suffix_refl []
  | cons token rest ih =>
      rw [pastAttribute]
      split
      · exact (List.tail_suffix rest).trans (List.suffix_cons token rest)
      · exact ih.trans (List.suffix_cons token rest)

theorem pastParens?_suffix {depth : Nat} {tokens rest : List Token}
    (h : pastParens? depth tokens = some (some rest)) : rest <:+ tokens := by
  induction tokens generalizing depth with
  | nil => cases h
  | cons token others ih =>
      rw [pastParens?, Option.bind_eq_some_iff] at h
      obtain ⟨next, _, hnext⟩ := h
      split at hnext
      · cases hnext
        exact List.suffix_cons token rest
      · exact (ih hnext).trans (List.suffix_cons token others)

def pastSpecifiers? : List Token → Option (Option (List Token))
  | [] => some (some [])
  | token :: rest =>
    match token.kind with
    | .attrOpen =>
      have := pastAttribute_length rest
      pastSpecifiers? (pastAttribute rest)
    | .alignasKw =>
      if kindAt rest = .lParen then
        match h : pastParens? 0 rest with
        | none => none
        | some none => some none
        | some (some after) =>
          have := (pastParens?_suffix h).length_le
          pastSpecifiers? after
      else pastSpecifiers? rest
    | _ => some (some (token :: rest))
termination_by tokens => tokens.length
decreasing_by all_goals simp only [List.length_cons]; omega

def startsTypeDeclaration? (tokens : List Token) : Option Bool :=
  (pastSpecifiers? (pastTypeKey tokens)).bind fun
    | none => some false
    | some rest =>
      let named := rest.dropWhile isNamePart
      (if kindAt named = .lt then pastAngles? 0 named else some (some named)).map fun
        | none => false
        | some rest =>
          match kindAt rest with
          | .lBrace | .colon | .semicolon => true
          | _ => false

theorem pastSpecifiers?_cons (token : Token) (rest : List Token) :
    pastSpecifiers? (token :: rest) =
      match token.kind with
      | .attrOpen => pastSpecifiers? (pastAttribute rest)
      | .alignasKw =>
        if kindAt rest = .lParen then
          (pastParens? 0 rest).bind fun past =>
            match past with
            | none => some none
            | some after => pastSpecifiers? after
        else pastSpecifiers? rest
      | _ => some (some (token :: rest)) := by
  rw [pastSpecifiers?]
  cases token.kind <;> try rfl
  dsimp only
  split
  · split <;> next h => rw [h]; rfl
  · rfl

theorem pastSpecifiers?_eq (tokens : List Token) :
    pastSpecifiers? tokens = some (pastSpecifiers tokens) := by
  match tokens with
  | [] => rw [pastSpecifiers?, pastSpecifiers]
  | token :: rest =>
      rw [pastSpecifiers?_cons, pastSpecifiers_cons]
      cases token.kind with
      | attrOpen =>
          have := pastAttribute_length rest
          exact pastSpecifiers?_eq (pastAttribute rest)
      | alignasKw =>
          by_cases hopening : kindAt rest = .lParen
          · dsimp only
            rw [if_pos hopening, if_pos hopening]
            cases rest with
            | nil => cases hopening
            | cons opening inner =>
                rw [pastParens?_opening hopening, Option.bind_some, List.tail_cons]
                cases hpast : pastParens 1 inner with
                | none => rfl
                | some after =>
                    have := pastParens_length hpast
                    exact pastSpecifiers?_eq after
          · dsimp only
            rw [if_neg hopening, if_neg hopening]
            exact pastSpecifiers?_eq rest
      | _ => rfl
termination_by tokens.length
decreasing_by all_goals simp only [List.length_cons]; omega

-- The lookahead counts without going below zero, and with these counts gives the same.
theorem startsTypeDeclaration?_eq (tokens : List Token) :
    startsTypeDeclaration? tokens = some (startsTypeDeclaration tokens) := by
  unfold startsTypeDeclaration? startsTypeDeclaration
  rw [pastSpecifiers?_eq, Option.bind_some]
  cases pastSpecifiers (pastTypeKey tokens) with
  | none => rfl
  | some rest =>
      dsimp only
      cases hnamed : rest.dropWhile isNamePart with
      | nil => rfl
      | cons token inner =>
          by_cases hangle : token.kind = .lt
          · rw [if_pos (show kindAt (token :: inner) = .lt from hangle), pastAngles?_opening hangle]
            dsimp only
            rw [if_pos hangle]
            cases pastAngles 1 inner <;> rfl
          · rw [if_neg (show kindAt (token :: inner) ≠ .lt from hangle)]
            dsimp only
            rw [if_neg hangle]
            rfl

def attributeAheadPass (_ : Unit) : List Token → Pass Unit (List Token)
  | [] => .ends []
  | token :: rest =>
    if token.kind = .rBracket ∧ kindAt rest = .rBracket then .ends rest.tail else .next () rest

def parensAheadPass (depth : Nat) : List Token → Pass Nat (Option (Option (List Token)))
  | [] => .ends (some none)
  | token :: rest =>
    match depthAfter? .lParen .rParen token.kind depth with
    | none => .ends none
    | some depth => if depth = 0 then .ends (some (some rest)) else .next depth rest

def anglesAheadPass (depth : Nat) : List Token → Pass Nat (Option (Option (List Token)))
  | [] => .ends (some none)
  | token :: rest =>
    if token.kind = .semicolon ∨ token.kind = .lBrace then .ends (some none)
    else
      match depthAfter? .lt .gt token.kind depth with
      | none => .ends none
      | some depth => if depth = 0 then .ends (some (some rest)) else .next depth rest

def specifiersAheadPass (_ : Unit) : List Token → Pass Unit (Option (Option (List Token)))
  | [] => .ends (some (some []))
  | token :: rest =>
    match token.kind with
    | .attrOpen => .next () (pastAttribute rest)
    | .alignasKw =>
      if kindAt rest = .lParen then
        match pastParens? 0 rest with
        | none => .ends none
        | some none => .ends (some none)
        | some (some after) => .next () after
      else .next () rest
    | _ => .ends (some (some (token :: rest)))

theorem pastAttribute_loop : Loop attributeAheadPass fun _ => pastAttribute := by
  refine .of_pass fun _ tokens => ?_
  cases tokens with
  | nil => exact .ends _ _
  | cons token rest =>
      rw [attributeAheadPass, pastAttribute]
      split
      · exact .ends _ _
      · exact .next () (List.suffix_refl rest)

theorem pastParens?_loop : Loop parensAheadPass pastParens? := by
  refine .of_pass fun depth tokens => ?_
  cases tokens with
  | nil => exact .ends _ _
  | cons token rest =>
      rw [parensAheadPass, pastParens?]
      cases depthAfter? .lParen .rParen token.kind depth with
      | none => exact .ends _ _
      | some depth =>
          rw [Option.bind_some]
          dsimp only
          split
          · exact .ends _ _
          · exact .next depth (List.suffix_refl rest)

theorem pastAngles?_loop : Loop anglesAheadPass pastAngles? := by
  refine .of_pass fun depth tokens => ?_
  cases tokens with
  | nil => exact .ends _ _
  | cons token rest =>
      rw [anglesAheadPass, pastAngles?]
      split
      · exact .ends _ _
      cases depthAfter? .lt .gt token.kind depth with
      | none => exact .ends _ _
      | some depth =>
          rw [Option.bind_some]
          dsimp only
          split
          · exact .ends _ _
          · exact .next depth (List.suffix_refl rest)

theorem pastSpecifiers?_loop : Loop specifiersAheadPass fun _ => pastSpecifiers? := by
  refine .of_pass fun _ tokens => ?_
  cases tokens with
  | nil =>
      rw [pastSpecifiers?]
      exact .ends _ _
  | cons token rest =>
      rw [specifiersAheadPass, pastSpecifiers?_cons]
      cases token.kind with
      | attrOpen => exact .next () (pastAttribute_suffix rest)
      | alignasKw =>
          dsimp only
          split
          · cases hpast : pastParens? 0 rest with
            | none => exact .ends _ _
            | some past =>
                cases past with
                | none => exact .ends _ _
                | some after => exact .next () (pastParens?_suffix hpast)
          · exact .next () (List.suffix_refl rest)
      | _ => exact .ends _ _

end Lookahead

section Slices

-- An attribute block whose text is cut out of the source, from its opening to its closing brackets;
-- nothing if that cannot be done.
def slicedBlock (text : List Char) (ending opening : Token) :
    List Token → Option (Read AnnotationBlock)
  | [] => some (.failed (.unterminated .attribute opening.span) [])
  | token :: rest =>
    if token.kind = .rBracket ∧ kindAt rest = .rBracket then
      (Text.slice? text opening.stop token.start).map fun inner =>
        .done ⟨.attribute, String.ofList (Text.trim inner),
          opening.span.merge (spanAt ending rest)⟩ rest.tail
    else slicedBlock text ending opening rest

-- By induction on the tokens: what has been passed is what stands behind the opening brackets.
theorem slicedBlock_eq {text front before : List Char} {ending opening : Token}
    (hopening : opening.stop = Text.byteLength front) {rest : List Token}
    (h : Placed text ending (front ++ before) rest) :
    slicedBlock text ending opening rest = some (attributeBlock ending opening before rest) := by
  induction rest generalizing before with
  | nil => rfl
  | cons token rest ih =>
      rw [slicedBlock, attributeBlock]
      split
      · have hslice : Text.slice? text opening.stop token.start = some (before ++ token.lead) := by
          cases h with
          | cons hstart hrest =>
              have hprefix := (Placed.cons hstart hrest).isPrefix_lead
              rw [hopening, hstart]
              rw [List.append_assoc] at hprefix ⊢
              exact Text.slice?_of_isPrefix hprefix
        rw [hslice]
        rfl
      · cases h with
        | cons _ hrest =>
            apply ih
            rwa [List.append_assoc] at hrest

-- The attribute blocks of a text, wherever they stand in it.
theorem slicedBlock_scan {text : List Char} {opening : Token} {rest : List Token}
    (h : opening :: rest <:+ (scan text).items) :
    slicedBlock text (scan text).ending opening rest =
      some (attributeBlock (scan text).ending opening [] rest) := by
  obtain ⟨before, hplaced⟩ := (scan_placed Lexical.lexeme .eof text).of_suffix h
  have hstop := hplaced.stop_eq
  cases hplaced with
  | cons _ hrest =>
      apply slicedBlock_eq hstop
      rwa [List.append_nil]

end Slices

-- The end of a text is a token without text.
theorem slice_ending (text : List Char) :
    Text.slice? text (scan text).ending.start (scan text).ending.stop =
      some (scan text).ending.text := by
  have htokens : Placed text (scan text).ending [] (scan text).items :=
    scan_placed Lexical.lexeme .eof text
  obtain ⟨before, hplaced⟩ := htokens.of_suffix List.nil_suffix
  cases hplaced with
  | nil _ hstart hnone =>
      have hslice := @Text.slice?_of_isPrefix text text [] (by simp)
      rw [List.append_nil] at hslice
      rw [Token.stop, hnone, hstart]
      exact hslice

-- The loops of the readers and of the lookahead end, and every pass of them moves on.
structure LoopsEnd (ending : Token) : Prop where
  scopes : ∀ nested, Loop (scopePass ending nested) fun _ tokens =>
    (scope .tolerant ending nested tokens).plain
  bodies : ∀ name, Loop (bodyPass ending name) fun access tokens =>
    (classBody .tolerant ending name access tokens).plain
  attributes : ∀ opening, Loop (attributePass ending opening) (attributeBlock ending opening)
  groups : ∀ opening, Loop (groupPass ending opening) (nestedGroup ending opening)
  angles : ∀ opening, Loop (anglesPass ending opening) (skipAngles ending opening)
  initializers : Loop (initializerPass ending) fun _ => skipInitializer ending
  declarations : Loop (declarationPass ending) (skipDeclaration ending)
  baseClauses : Loop (baseClausePass ending) fun _ => skipBaseClause ending
  memberInitializers : Loop (memberInitializersPass ending) fun _ => skipMemberInitializers ending
  functionEnds : Loop (functionEndPass ending) fun _ => skipFunctionEnd ending
  specifiers : Loop (specifiersPass ending) fun _ => specifiers ending
  recovery : Loop recoverPass recover
  attributesAhead : Loop attributeAheadPass fun _ => pastAttribute
  parensAhead : Loop parensAheadPass pastParens?
  anglesAhead : Loop anglesAheadPass pastAngles?
  specifiersAhead : Loop specifiersAheadPass fun _ => pastSpecifiers?

theorem loopsEnd (ending : Token) : LoopsEnd ending where
  scopes := scope_loop ending
  bodies := classBody_loop ending
  attributes := attributeBlock_loop ending
  groups := nestedGroup_loop ending
  angles := skipAngles_loop ending
  initializers := skipInitializer_loop ending
  declarations := skipDeclaration_loop ending
  baseClauses := skipBaseClause_loop ending
  memberInitializers := skipMemberInitializers_loop ending
  functionEnds := skipFunctionEnd_loop ending
  specifiers := specifiers_loop ending
  recovery := recover_loop
  attributesAhead := pastAttribute_loop
  parensAhead := pastParens?_loop
  anglesAhead := pastAngles?_loop
  specifiersAhead := pastSpecifiers?_loop

-- Nothing closes the scope of the whole text before its end.
theorem scope_rest_eq_nil {ending : Token} (tokens : List Token) :
    (scope .tolerant ending false tokens).rest = [] := by
  match tokens with
  | [] => rw [scope_nil]
  | token :: rest =>
      by_cases hbrace : token.kind = .rBrace
      · rw [(scope_unmatched hbrace).rest]
        exact scope_rest_eq_nil rest
      · have hlength := @resume_length token rest (scopeItem .tolerant ending (token :: rest)).next
        rw [(scope_extends false hbrace (.inl rfl)).rest]
        exact scope_rest_eq_nil _
termination_by tokens.length
decreasing_by
  all_goals simp only [List.length_cons]
  all_goals omega

-- Tolerant reading of a text gives a tree and stops at its end; its loops end, its lookahead never
-- counts below zero, and all its slices of the text are in range.
theorem tolerant_parse_total (text : List Char) :
    (∃ parsed, parse .tolerant text = .ok parsed) ∧
      (scope .tolerant (scan text).ending false (scan text).items).rest = [] ∧
      LoopsEnd (scan text).ending ∧
      (∀ tokens, startsTypeDeclaration? tokens = some (startsTypeDeclaration tokens)) ∧
      (∀ token ∈ tokenize text, Text.slice? text token.start token.stop = some token.text) ∧
      (∀ opening rest, opening :: rest <:+ (scan text).items →
        slicedBlock text (scan text).ending opening rest =
          some (attributeBlock (scan text).ending opening [] rest)) := by
  obtain ⟨entities, houtcome⟩ := @scope_tolerant_ok (scan text).ending false (scan text).items
  refine ⟨⟨_, parse_of_ok houtcome⟩, scope_rest_eq_nil _, loopsEnd _, startsTypeDeclaration?_eq,
    fun token hmem => ?_, fun opening rest h => slicedBlock_scan h⟩
  obtain hitem | hlast := List.mem_append.mp hmem
  · exact (scan_placed Lexical.lexeme .eof text).slice hitem
  · obtain rfl := List.mem_singleton.mp hlast
    exact slice_ending text

end Reflection.Header
