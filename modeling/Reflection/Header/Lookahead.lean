import Reflection.Header.Annotations

namespace Reflection.Header

-- What follows the first `]]`; nothing if there is none.
def pastAttribute : List Token → List Token
  | [] => []
  | token :: rest =>
    if token.kind = .rBracket ∧ kindAt rest = .rBracket then rest.tail else pastAttribute rest

-- What follows the parenthesis that closes the outermost of `depth` open ones.
def pastParens (depth : Nat) : List Token → Option (List Token)
  | [] => none
  | token :: rest =>
    match token.kind with
    | .lParen => pastParens (depth + 1) rest
    | .rParen => if depth ≤ 1 then some rest else pastParens (depth - 1) rest
    | _ => pastParens depth rest

theorem pastAttribute_length (tokens : List Token) :
    (pastAttribute tokens).length ≤ tokens.length := by
  fun_induction pastAttribute with grind

theorem pastParens_length {depth : Nat} {tokens rest : List Token}
    (h : pastParens depth tokens = some rest) : rest.length ≤ tokens.length := by
  fun_induction pastParens with grind

-- What follows the attribute blocks and `alignas` specifiers that come next.
def pastSpecifiers : List Token → Option (List Token)
  | [] => some []
  | token :: rest =>
    match token.kind with
    | .attrOpen =>
      have := pastAttribute_length rest
      pastSpecifiers (pastAttribute rest)
    | .alignasKw =>
      match rest with
      | opening :: inner =>
        if opening.kind = .lParen then
          match h : pastParens 1 inner with
          | some after =>
            have := pastParens_length h
            pastSpecifiers after
          | none => none
        else pastSpecifiers (opening :: inner)
      | [] => some []
    | _ => some (token :: rest)
termination_by tokens => tokens.length
decreasing_by all_goals simp only [List.length_cons]; omega

-- What follows template arguments, `depth` angle brackets deep.
def pastAngles (depth : Nat) : List Token → Option (List Token)
  | [] => none
  | token :: rest =>
    match token.kind with
    | .lt => pastAngles (depth + 1) rest
    | .gt => if depth ≤ 1 then some rest else pastAngles (depth - 1) rest
    | .semicolon | .lBrace => none
    | _ => pastAngles depth rest

def isNamePart (token : Token) : Bool := token.kind = .ident || token.kind = .colonColon

-- The tokens after the keyword of a class or enum: `enum class` and `enum struct` are two words.
def pastTypeKey : List Token → List Token
  | [] => []
  | token :: rest =>
    if token.kind = .enumKw ∧ (kindAt rest = .classKw ∨ kindAt rest = .structKw) then rest.tail
    else rest

-- Does the type keyword that comes next start the declaration of a type? After specifiers, a
-- name and template arguments, there has to be a body, a base or underlying type, or the end.
def startsTypeDeclaration (tokens : List Token) : Bool :=
  match pastSpecifiers (pastTypeKey tokens) with
  | none => false
  | some rest =>
    let named := rest.dropWhile isNamePart
    let plain := match named with
      | token :: inner => if token.kind = .lt then pastAngles 1 inner else some named
      | [] => some []
    match plain with
    | none => false
    | some rest =>
      match kindAt rest with
      | .lBrace | .colon | .semicolon => true
      | _ => false

end Reflection.Header
