import Reflection.Header.Lookahead
import Reflection.Header.Recorded
import Reflection.Header.Types

namespace Reflection.Header

-- The members read from one place in a class body, and the access in force after it.
structure MemberStep (bound : Nat) where
  members : List Member
  access : Access
  error : Option ParseError
  recovered : List ParseError
  rest : List Token
  rest_le : rest.length ≤ bound

theorem classOpening_length {ending : Token} {tokens rest : List Token} {opening : ClassOpening}
    (h : classOpening ending tokens = .done opening rest) : rest.length ≤ tokens.length :=
  (Read.suffix_of_done (classOpening_suffix ending tokens) h).length_le

theorem leadingAnnotations_length {ending : Token} {tokens rest : List Token}
    {annotations : List AnnotationBlock}
    (h : leadingAnnotations ending tokens = .done annotations rest) :
    rest.length ≤ tokens.length :=
  (Read.suffix_of_done (leadingAnnotations_suffix ending tokens) h).length_le

def classKey (keyword : Token) : ClassKey :=
  match keyword.kind with
  | .classKw => .classKey
  | .unionKw => .unionKey
  | _ => .structKey

def isClassKey : TokenKind → Bool
  | .classKw | .structKw | .unionKw => true
  | _ => false

def accessOf : TokenKind → Access
  | .publicKw => .publicAccess
  | .protectedKw => .protectedAccess
  | _ => .privateAccess

-- `enum Mode { On } mode;` in a class also declares the field `mode`.
def declaratorField (access : Access) (name : Token) : Member :=
  .field ⟨name.word, false, access, [], name.span⟩

def typeMembers (access : Access) (entity : Entity) (declarators : List Token) : List Member :=
  .type entity :: declarators.map (declaratorField access)

-- A trailing comment belongs to all members of the declaration before it.
def Member.annotate (block : AnnotationBlock) : Member → Member
  | .field decl => .field { decl with annotations := decl.annotations ++ [block] }
  | .method decl => .method { decl with annotations := decl.annotations ++ [block] }
  | .type entity => .type entity

-- Fields and functions, with the trailing comment behind them.
def plainMembers (context : MemberContext) (ending : Token) (tokens : List Token) : MembersRead :=
  let read := memberDeclaration context ending Seen.nothing tokens
  match read.error with
  | some _ => read
  | none =>
    match trailingDoc read.rest with
    | (some doc, rest) => ⟨read.members.map (Member.annotate doc), none, rest⟩
    | (none, _) => read

theorem plainMembers_suffix (context : MemberContext) (ending : Token) (tokens : List Token) :
    (plainMembers context ending tokens).rest <:+ tokens := by
  have hread := memberDeclaration_suffix context ending Seen.nothing tokens
  unfold plainMembers
  dsimp only
  split
  · exact hread
  · split
    · next h =>
      have := trailingDoc_suffix (memberDeclaration context ending Seen.nothing tokens).rest
      rw [h] at this
      exact this.trans hread
    · exact hread

namespace MemberStep

variable {bound : Nat}

def nothing (access : Access) (rest : List Token) (h : rest.length ≤ bound) :
    MemberStep bound := ⟨[], access, none, [], rest, h⟩

def within {larger : Nat} (h : bound ≤ larger) (step : MemberStep bound) : MemberStep larger :=
  { step with rest_le := Nat.le_trans step.rest_le h }

def failed (access : Access) (error : ParseError) (rest : List Token)
    (h : rest.length ≤ bound) : MemberStep bound := ⟨[], access, some error, [], rest, h⟩

-- A step that gives no members, out of a reading without a value.
def ofSkip (access : Access) (read : Read Unit) (h : read.rest.length ≤ bound) :
    MemberStep bound :=
  ⟨[], access, match read with
    | .done _ _ => none
    | .failed error _ => some error, [], read.rest, h⟩

def ofMembers (access : Access) (read : MembersRead) (h : read.rest.length ≤ bound) :
    MemberStep bound := ⟨read.members, access, read.error, [], read.rest, h⟩

-- A step that gives what a nested type declares.
def ofRecorded (access : Access) (read : Recorded (List Member) bound) : MemberStep bound :=
  match read.outcome with
  | .ok members => ⟨members, access, none, read.recovered, read.rest, read.rest_le⟩
  | .error error => ⟨[], access, some error, read.recovered, read.rest, read.rest_le⟩

end MemberStep

-- The end of a class after the brace that closes its body.
def classEnd (ending : Token) (entity : List Token → Entity) (tokens : List Token) :
    Read (Entity × List Token) :=
  (typeDeclarators ending none tokens).map fun names => (entity tokens, names)

theorem classEnd_length (ending : Token) (entity : List Token → Entity) (tokens : List Token) :
    (classEnd ending entity tokens).rest.length ≤ tokens.length := by
  simpa [classEnd] using (typeDeclarators_suffix ending none tokens).length_le

-- A step over a reported error goes on where a new declaration may start.
def MemberStep.next {bound : Nat} (step : MemberStep bound) : List Token :=
  if step.error.isSome then recover 0 step.rest else step.rest

mutual

-- A class after its keyword, with the names of the declarators behind its body.
def classDeclaration (mode : ErrorMode) (ending : Token) (annotations : List AnnotationBlock)
    (isTemplate : Bool) (keyword : Token) (tokens : List Token) :
    Recorded (Entity × List Token) tokens.length :=
  match h : classOpening ending tokens with
  | .failed error rest =>
    ⟨.error error, [], rest,
      (Read.suffix_of_failed (classOpening_suffix ending tokens) h).length_le⟩
  | .done opening rest =>
    have hrest := classOpening_length h
    let key := classKey keyword
    let head := fun isDefinition rest => ClassHead.mk (joinName opening.name) key isDefinition
      isTemplate (annotations ++ opening.attributes) (spanFrom ending keyword.span rest)
    if opening.hasBody then
      ((classBody mode ending opening.name.getLast? key.defaultAccess rest).andThen
        (fun members => classEnd ending fun rest => .classDecl (head true rest) members)
        fun _ => classEnd_length ending _).within hrest
    else ⟨.ok (.classDecl (head false rest) [], []), [], rest, hrest⟩
termination_by 4 * tokens.length + 3
decreasing_by omega

-- The members of a class up to and with the brace that closes the body. A member that cannot be
-- read is reported and passed over, and reading goes on with the next one.
def classBody (mode : ErrorMode) (ending : Token) (name : Option String) (access : Access)
    (tokens : List Token) : Recorded (List Member) tokens.length :=
  match tokens with
  | [] => ⟨.error (.unexpectedEnd ending.span), [], [], Nat.le_refl _⟩
  | token :: rest =>
    if token.kind = .rBrace then ⟨.ok [], [], rest, Nat.le_succ _⟩
    else
      let step := memberStep mode ending name access (token :: rest)
      match step.error, mode with
      | some error, .fatal => ⟨.error error, step.recovered, step.rest, step.rest_le⟩
      | reported, mode =>
        have hresume := @resume_length token rest step.next
        let others := classBody mode ending name step.access (resume (token :: rest) step.next)
        ((others.map (step.members ++ ·)).behind (step.recovered ++ reported.toList)).within
          (Nat.le_trans hresume (Nat.le_succ _))
termination_by 4 * tokens.length + 2
decreasing_by
  · omega
  · refine Nat.lt_of_le_of_lt
      (Nat.add_le_add_right (Nat.mul_le_mul_left 4 resume_length) 2) ?_
    simp only [List.length_cons]
    omega

-- The next declaration of a class body.
def memberStep (mode : ErrorMode) (ending : Token) (name : Option String) (access : Access)
    (tokens : List Token) : MemberStep tokens.length :=
  match h : leadingAnnotations ending tokens with
  | .failed error rest =>
    .failed access error rest
      (Read.suffix_of_failed (leadingAnnotations_suffix ending tokens) h).length_le
  | .done annotations rest =>
    have hrest := leadingAnnotations_length h
    (member mode ending name access annotations rest).within hrest
termination_by 4 * tokens.length + 1
decreasing_by omega

-- A declaration of a class body after the annotations in front of it.
def member (mode : ErrorMode) (ending : Token) (name : Option String) (access : Access)
    (annotations : List AnnotationBlock) (tokens : List Token) : MemberStep tokens.length :=
  match tokens with
  | [] => .nothing access [] (Nat.le_refl _)
  | token :: rest =>
    let plain := MemberStep.ofMembers access
      (plainMembers ⟨token.span, annotations, access, name⟩ ending (token :: rest))
      (plainMembers_suffix _ ending (token :: rest)).length_le
    match token.kind with
    | .publicKw | .protectedKw | .privateKw =>
      .ofSkip (accessOf token.kind) (expect ending .colon rest)
        (Nat.le_trans (expect_suffix ending .colon rest).length_le (Nat.le_succ _))
    | .classKw | .structKw | .unionKw =>
      if startsTypeDeclaration (token :: rest) then
        .ofRecorded access (((classDeclaration mode ending annotations false token rest).map
          fun read => typeMembers access read.1 read.2).within (Nat.le_succ _))
      else plain
    | .enumKw =>
      if startsTypeDeclaration (token :: rest) then
        .ofRecorded access (((Recorded.ofRead (enumDeclaration ending annotations token rest)
          (enumDeclaration_suffix ending annotations token rest).length_le).map
            fun read => typeMembers access (.enumDecl read.1) read.2).within (Nat.le_succ _))
      else plain
    | .templateKw =>
      .ofRecorded access (((templateDeclaration mode ending annotations rest).map
        fun entity => entity.toList.map .type).within (Nat.le_succ _))
    | .usingKw | .typedefKw | .friendKw | .staticAssertKw =>
      .ofSkip access (skipDeclaration ending .nothing (token :: rest))
        (skipDeclaration_suffix ending .nothing (token :: rest)).length_le
    | .semicolon => .nothing access rest (Nat.le_succ _)
    | .rBrace => .nothing access (token :: rest) (Nat.le_refl _)
    | _ => plain
termination_by 4 * tokens.length
decreasing_by all_goals simp only [List.length_cons]; omega

-- A template after its keyword: only class templates are kept.
def templateDeclaration (mode : ErrorMode) (ending : Token) (annotations : List AnnotationBlock)
    (tokens : List Token) : Recorded (Option Entity) tokens.length :=
  match h : skipTemplateArguments ending tokens with
  | .failed error rest =>
    ⟨.error error, [], rest,
      (Read.suffix_of_failed (skipTemplateArguments_suffix ending tokens) h).length_le⟩
  | .done _ [] =>
    ⟨.error (unexpected ending .semicolon []), [], [], Nat.zero_le _⟩
  | .done _ (keyword :: rest) =>
    have hrest := (Read.suffix_of_done (skipTemplateArguments_suffix ending tokens) h).length_le
    (if isClassKey keyword.kind && startsTypeDeclaration (keyword :: rest) then
      ((classDeclaration mode ending annotations true keyword rest).map
        fun read => some read.1).within (Nat.le_succ _)
    else
      (Recorded.ofRead (skipDeclaration ending .nothing (keyword :: rest))
        (skipDeclaration_suffix ending .nothing (keyword :: rest)).length_le).map
          fun _ => none).within hrest
termination_by 4 * tokens.length
decreasing_by simp only [List.length_cons] at hrest; omega

end

end Reflection.Header
