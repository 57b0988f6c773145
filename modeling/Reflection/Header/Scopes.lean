import Reflection.Header.Classes

namespace Reflection.Header

-- What stands between the keyword of a namespace and its contents.
structure NamespaceOpening where
  name : List String
  -- an alias has no contents
  hasBody : Bool

-- A namespace after its keyword, into the body or to the end of an alias.
def namespaceOpening (ending : Token) (tokens : List Token) : Read NamespaceOpening :=
  (specifiers ending tokens).bind fun _ rest =>
    let named := qualifiedName rest
    if kindAt named.2 = .eq then
      (skipDeclaration ending .nothing named.2).map fun _ => ⟨named.1, false⟩
    else (expect ending .lBrace named.2).map fun _ => ⟨named.1, true⟩

theorem namespaceOpening_suffix (ending : Token) (tokens : List Token) :
    (namespaceOpening ending tokens).rest <:+ tokens := by
  refine Read.suffix_bind (specifiers_suffix ending tokens) fun _ rest => ?_
  dsimp only
  split
  · simpa using (skipDeclaration_suffix ending .nothing _).trans (qualifiedName_suffix rest)
  · simpa using (expect_suffix ending .lBrace _).trans (qualifiedName_suffix rest)

-- The brace that closes a scope, and what the scope was read for.
def closeScope {α : Type} (ending : Token) (value : List Token → α) (tokens : List Token) :
    Read α :=
  (expect ending .rBrace tokens).bind fun _ rest => .done (value rest) rest

theorem closeScope_length {α : Type} (ending : Token) (value : List Token → α)
    (tokens : List Token) : (closeScope ending value tokens).rest.length ≤ tokens.length :=
  (Read.suffix_bind (expect_suffix ending .rBrace tokens)
    fun _ rest => by simp).length_le

-- Finishes a scope whose contents have been read.
def Recorded.close {α β : Type} {bound : Nat} (ending : Token) (value : α → List Token → β)
    (read : Recorded α bound) : Recorded β bound :=
  read.andThen (fun contents => closeScope ending (value contents))
    fun contents => closeScope_length ending (value contents)

mutual

-- The declarations of a namespace up to the brace that closes it, or of the whole header. One that
-- cannot be read is reported and passed over, and reading goes on with the next one. A closing
-- brace without an opening one is reported and dropped.
def scope (mode : ErrorMode) (ending : Token) (nested : Bool) (tokens : List Token) :
    Recorded (List Entity) tokens.length :=
  match tokens with
  | [] =>
    match nested, mode with
    | false, _ => ⟨.ok [], [], [], Nat.le_refl _⟩
    | true, .fatal => ⟨.error (.unexpectedEnd ending.span), [], [], Nat.le_refl _⟩
    | true, .tolerant => ⟨.ok [], [.unexpectedEnd ending.span], [], Nat.le_refl _⟩
  | token :: rest =>
    if token.kind = .rBrace then
      match nested, mode with
      | true, _ => ⟨.ok [], [], token :: rest, Nat.le_refl _⟩
      | false, .fatal => ⟨.error (.unmatchedBrace token.span), [], rest, Nat.le_succ _⟩
      | false, .tolerant =>
        ((scope .tolerant ending false rest).behind [.unmatchedBrace token.span]).within
          (Nat.le_succ _)
    else
      let step := scopeItem mode ending (token :: rest)
      match step.outcome, mode with
      | .error error, .fatal => ⟨.error error, step.recovered, step.rest, step.rest_le⟩
      | outcome, mode =>
        let (found, reported, next) := match outcome with
          | .ok entities => (entities, [], step.rest)
          | .error error => ([], [error], recover 0 step.rest)
        have hresume := @resume_length token rest next
        let others := scope mode ending nested (resume (token :: rest) next)
        ((others.map (found ++ ·)).behind (step.recovered ++ reported)).within
          (Nat.le_trans hresume (Nat.le_succ _))
termination_by 4 * tokens.length + 2
decreasing_by
  · simp only [List.length_cons]; omega
  · omega
  · refine Nat.lt_of_le_of_lt
      (Nat.add_le_add_right (Nat.mul_le_mul_left 4 resume_length) 2) ?_
    simp only [List.length_cons]
    omega

-- The next declaration of a scope.
def scopeItem (mode : ErrorMode) (ending : Token) (tokens : List Token) :
    Recorded (List Entity) tokens.length :=
  match h : leadingAnnotations ending tokens with
  | .failed error rest =>
    ⟨.error error, [], rest,
      (Read.suffix_of_failed (leadingAnnotations_suffix ending tokens) h).length_le⟩
  | .done annotations rest =>
    have hrest := leadingAnnotations_length h
    (scopeDeclaration mode ending annotations rest).within hrest
termination_by 4 * tokens.length + 1
decreasing_by omega

-- A declaration of a scope after the annotations in front of it. Linkage blocks do not
-- introduce a scope of their own.
def scopeDeclaration (mode : ErrorMode) (ending : Token) (annotations : List AnnotationBlock)
    (tokens : List Token) : Recorded (List Entity) tokens.length :=
  match tokens with
  | [] => ⟨.ok [], [], [], Nat.le_refl _⟩
  | token :: rest =>
    let skipped : Recorded (List Entity) (token :: rest).length :=
      (Recorded.ofRead (skipDeclaration ending .nothing (token :: rest))
        (skipDeclaration_suffix ending .nothing (token :: rest)).length_le).map fun _ => []
    match token.kind with
    | .namespaceKw => (namespaceDeclaration mode ending false token rest).within (Nat.le_succ _)
    | .inlineKw =>
      if kindAt rest = .namespaceKw then
        (namespaceDeclaration mode ending true (rest.headD ending) rest.tail).within
          (by simp only [List.length_tail, List.length_cons]; omega)
      else skipped
    | .externKw =>
      if kindAt rest = .string ∧ kindAt rest.tail = .lBrace then
        ((scope mode ending true rest.tail.tail).close ending fun entities _ => entities).within
          (by simp only [List.length_tail, List.length_cons]; omega)
      else skipped
    | .classKw | .structKw | .unionKw =>
      if startsTypeDeclaration (token :: rest) then
        ((classDeclaration mode ending annotations false token rest).map
          fun read => [read.1]).within (Nat.le_succ _)
      else skipped
    | .enumKw =>
      if startsTypeDeclaration (token :: rest) then
        ((Recorded.ofRead (enumDeclaration ending annotations token rest)
          (enumDeclaration_suffix ending annotations token rest).length_le).map
            fun read => [.enumDecl read.1]).within (Nat.le_succ _)
      else skipped
    | .templateKw =>
      ((templateDeclaration mode ending annotations rest).map Option.toList).within
        (Nat.le_succ _)
    | .semicolon => ⟨.ok [], [], rest, Nat.le_succ _⟩
    | .rBrace => ⟨.ok [], [], token :: rest, Nat.le_refl _⟩
    | _ => skipped
termination_by 4 * tokens.length
decreasing_by all_goals simp only [List.length_cons, List.length_tail]; omega

-- A namespace after its keyword; an alias declares nothing.
def namespaceDeclaration (mode : ErrorMode) (ending : Token) (isInline : Bool) (keyword : Token)
    (tokens : List Token) : Recorded (List Entity) tokens.length :=
  match h : namespaceOpening ending tokens with
  | .failed error rest =>
    ⟨.error error, [], rest,
      (Read.suffix_of_failed (namespaceOpening_suffix ending tokens) h).length_le⟩
  | .done opening rest =>
    have hrest := (Read.suffix_of_done (namespaceOpening_suffix ending tokens) h).length_le
    if opening.hasBody then
      ((scope mode ending true rest).close ending fun entities rest =>
        [.namespaceDecl ⟨joinName opening.name, isInline, spanFrom ending keyword.span rest⟩
          entities]).within hrest
    else ⟨.ok [], [], rest, hrest⟩
termination_by 4 * tokens.length + 3
decreasing_by omega

end

-- The tree of a header, and the errors that reading it recovered from.
structure Parsed where
  tree : DeclarationTree
  recovered : List ParseError

def parseTokens (mode : ErrorMode) (tokens : Tokens TokenKind) : Except ParseError Parsed :=
  let read := scope mode tokens.ending false tokens.items
  read.outcome.map fun entities =>
    ⟨⟨entities, (spanAt tokens.ending tokens.items).merge (spanAt tokens.ending read.rest)⟩,
      read.recovered⟩

-- Reads the declarations of a header in which all macros are expanded.
def parse (mode : ErrorMode) (text : List Char) : Except ParseError Parsed :=
  parseTokens mode (scan text)

end Reflection.Header
