import Reflection.Proofs.Header.Reports

namespace Reflection.Header

-- One pass of a loop. Where the loop goes on, `finish` is applied to what it ends with.
inductive Pass (σ ρ : Type) where
  | ends (result : ρ)
  | again (finish : ρ → ρ) (state : σ) (rest : List Token)

-- A loop that is stopped if it has not ended after so many passes.
def iterate {σ ρ : Type} (pass : σ → List Token → Pass σ ρ) : Nat → σ → List Token → Option ρ
  | 0, _, _ => none
  | passes + 1, state, tokens =>
    match pass state tokens with
    | .ends result => some result
    | .again finish next rest => (iterate pass passes next rest).map finish

-- Every pass moves on in the tokens or ends the loop, and the loop ends with what `run` gives.
structure Loop {σ ρ : Type} (pass : σ → List Token → Pass σ ρ) (run : σ → List Token → ρ) :
    Prop where
  forward : ∀ state tokens finish next rest, pass state tokens = .again finish next rest →
    rest <:+ tokens ∧ rest.length < tokens.length
  result : ∀ state tokens, iterate pass (tokens.length + 1) state tokens = some (run state tokens)

namespace Pass

variable {σ ρ : Type}

-- A pass that goes on without anything to do at the end.
def next (state : σ) (rest : List Token) : Pass σ ρ := .again id state rest

-- A pass that reads something before it goes on.
def behind {α β : Type} (read : Read α) (go : α → List Token → Pass σ (Read β)) :
    Pass σ (Read β) :=
  match read with
  | .done value rest => go value rest
  | .failed error rest => .ends (.failed error rest)

-- What one pass has to do with the value that the loop gives.
def Gives (run : σ → List Token → ρ) (tokens : List Token) (value : ρ) : Pass σ ρ → Prop
  | .ends result => value = result
  | .again finish next rest =>
    (rest <:+ tokens ∧ rest.length < tokens.length) ∧ value = finish (run next rest)

variable {run : σ → List Token → ρ} {token : Token} {rest after : List Token}

theorem Gives.ends (tokens : List Token) (value : ρ) :
    (Pass.ends value).Gives run tokens value := rfl

theorem Gives.again (finish : ρ → ρ) (state : σ) (h : after <:+ rest) :
    (Pass.again finish state after).Gives run (token :: rest) (finish (run state after)) :=
  ⟨⟨h.trans (List.suffix_cons token rest), Nat.lt_succ_of_le h.length_le⟩, rfl⟩

theorem Gives.next (state : σ) (h : after <:+ rest) :
    (Pass.next state after : Pass σ ρ).Gives run (token :: rest) (run state after) :=
  Gives.again id state h

theorem Gives.behind {α β : Type} {run : σ → List Token → Read β} {read : Read α}
    {go : α → List Token → Pass σ (Read β)} {values : α → List Token → Read β}
    (hrest : read.rest <:+ rest)
    (hgo : ∀ value after, after <:+ rest →
      (go value after).Gives run (token :: rest) (values value after)) :
    (Pass.behind read go).Gives run (token :: rest) (read.bind values) := by
  cases read with
  | done value after => exact hgo value after hrest
  | failed error after => rfl

end Pass

-- By induction on the number of passes: each of them leaves fewer tokens than passes.
theorem Loop.of_pass {σ ρ : Type} {pass : σ → List Token → Pass σ ρ} {run : σ → List Token → ρ}
    (h : ∀ state tokens, (pass state tokens).Gives run tokens (run state tokens)) :
    Loop pass run := by
  have hiterate : ∀ passes state tokens, tokens.length < passes →
      iterate pass passes state tokens = some (run state tokens) := by
    intro passes
    induction passes with
    | zero =>
        intro state tokens hlt
        exact absurd hlt (Nat.not_lt_zero _)
    | succ passes ih =>
        intro state tokens hlt
        have hpass := h state tokens
        rw [iterate]
        cases hnext : pass state tokens with
        | ends result =>
            rw [hnext] at hpass
            exact congrArg some hpass.symm
        | again finish next rest =>
            rw [hnext] at hpass
            obtain ⟨⟨_, hshorter⟩, hvalue⟩ := hpass
            dsimp only
            rw [ih next rest (by omega), hvalue]
            rfl
  refine ⟨fun state tokens finish next rest hnext => ?_, fun state tokens =>
    hiterate _ state tokens (Nat.lt_succ_self _)⟩
  have hpass := h state tokens
  rw [hnext] at hpass
  exact hpass.1

section Skipping

variable (ending opening : Token)

def attributePass (text : List Char) : List Token → Pass (List Char) (Read AnnotationBlock)
  | [] => .ends (.failed (.unterminated .attribute opening.span) [])
  | token :: rest =>
    if token.kind = .rBracket ∧ kindAt rest = .rBracket then
      .ends (.done ⟨.attribute, String.ofList (Text.trim (text ++ token.lead)),
        opening.span.merge (spanAt ending rest)⟩ rest.tail)
    else .next (text ++ token.spelled) rest

theorem attributeBlock_loop :
    Loop (attributePass ending opening) (attributeBlock ending opening) := by
  refine .of_pass fun text tokens => ?_
  cases tokens with
  | nil => exact .ends _ _
  | cons token rest =>
      rw [attributePass, attributeBlock]
      split
      · exact .ends _ _
      · exact .next _ (List.suffix_refl rest)

def groupPass (depth : Nat) : List Token → Pass Nat (Read Unit)
  | [] => .ends (.failed (.unterminated .delimiters opening.span) [])
  | token :: rest =>
    if token.kind = .attrOpen then
      .behind (attributeBlock ending token [] rest) fun _ after => .next depth after
    else if token.kind.isOpen then .next (depth + 1) rest
    else if token.kind.isClose then
      if depth ≤ 1 then .ends (.done () rest) else .next (depth - 1) rest
    else .next depth rest

theorem nestedGroup_loop : Loop (groupPass ending opening) (nestedGroup ending opening) := by
  refine .of_pass fun depth tokens => ?_
  cases tokens with
  | nil =>
      rw [nestedGroup]
      exact .ends _ _
  | cons token rest =>
      rw [groupPass, nestedGroup_cons]
      split
      · exact .behind (attributeBlock_suffix ending token [] rest) fun _ after h => .next depth h
      split
      · exact .next _ (List.suffix_refl rest)
      split
      · split
        · exact .ends _ _
        · exact .next _ (List.suffix_refl rest)
      · exact .next _ (List.suffix_refl rest)

def anglesPass (depth : Nat) : List Token → Pass Nat (Read Unit)
  | [] => .ends (.failed (.unterminated .templateArguments opening.span) [])
  | token :: rest =>
    match token.kind with
    | .lt => .next (depth + 1) rest
    | .gt => if depth ≤ 1 then .ends (.done () rest) else .next (depth - 1) rest
    | .semicolon | .rBrace =>
      .ends (.failed (.unterminated .templateArguments opening.span) (token :: rest))
    | kind =>
      if kind.isOpen then .behind (skipGroup ending token rest) fun _ after => .next depth after
      else .next depth rest

theorem skipAngles_loop : Loop (anglesPass ending opening) (skipAngles ending opening) := by
  refine .of_pass fun depth tokens => ?_
  cases tokens with
  | nil =>
      rw [skipAngles]
      exact .ends _ _
  | cons token rest =>
      rw [anglesPass, skipAngles_cons]
      cases token.kind with
      | lt => exact .next _ (List.suffix_refl rest)
      | gt =>
          dsimp only
          split
          · exact .ends _ _
          · exact .next _ (List.suffix_refl rest)
      | semicolon | rBrace => exact .ends _ _
      | lParen | lBrace | lBracket | attrOpen =>
          exact .behind (skipGroup_suffix ending token rest) fun _ after h => .next depth h
      | _ => exact .next depth (List.suffix_refl rest)

end Skipping

section Declarations

variable (ending : Token)

def initializerPass (_ : Unit) : List Token → Pass Unit (Read Unit)
  | [] => .ends (.done () [])
  | token :: rest =>
    match token.kind with
    | .comma | .semicolon | .rBrace => .ends (.done () (token :: rest))
    | kind =>
      if kind.isOpen then .behind (skipGroup ending token rest) fun _ after => .next () after
      else .next () rest

theorem skipInitializer_loop : Loop (initializerPass ending) fun _ => skipInitializer ending := by
  refine .of_pass fun _ tokens => ?_
  cases tokens with
  | nil =>
      rw [skipInitializer]
      exact .ends _ _
  | cons token rest =>
      rw [initializerPass, skipInitializer_cons]
      cases token.kind with
      | comma | semicolon | rBrace => exact .ends _ _
      | lParen | lBrace | lBracket | attrOpen =>
          exact .behind (skipGroup_suffix ending token rest) fun _ after h => .next () h
      | _ => exact .next () (List.suffix_refl rest)

def declarationPass (passed : Passed) : List Token → Pass Passed (Read Unit)
  | [] => .ends (.failed (unexpected ending .semicolon []) [])
  | token :: rest =>
    match token.kind with
    | .semicolon => .ends (.done () rest)
    | .rBrace => .ends (.failed (unexpected ending .semicolon (token :: rest)) (token :: rest))
    | .eq => .next { passed with equals := true } rest
    | .lParen =>
      .behind (skipGroup ending token rest) fun _ after =>
        .next { passed with parameters := passed.parameters || !passed.equals } after
    | .lBrace =>
      .behind (skipGroup ending token rest) fun _ after =>
        if passed.parameters && !passed.equals then .ends (.done () (skipOne .semicolon after))
        else .next passed after
    | kind =>
      if kind.isOpen then .behind (skipGroup ending token rest) fun _ after => .next passed after
      else .next passed rest

theorem skipDeclaration_loop : Loop (declarationPass ending) (skipDeclaration ending) := by
  refine .of_pass fun passed tokens => ?_
  cases tokens with
  | nil =>
      rw [skipDeclaration]
      exact .ends _ _
  | cons token rest =>
      have hgroup := skipGroup_suffix ending token rest
      rw [declarationPass, skipDeclaration_cons]
      cases token.kind with
      | semicolon | rBrace => exact .ends _ _
      | lParen => exact .behind hgroup fun _ after h => .next _ h
      | lBrace =>
          refine .behind hgroup fun _ after h => ?_
          split
          · exact .ends _ _
          · exact .next passed h
      | lBracket | attrOpen => exact .behind hgroup fun _ after h => .next passed h
      | _ => exact .next _ (List.suffix_refl rest)

def baseClausePass (_ : Unit) : List Token → Pass Unit (Read Unit)
  | [] => .ends (.failed (unexpected ending .lBrace []) [])
  | token :: rest =>
    match token.kind with
    | .lBrace => .ends (.done () (token :: rest))
    | .semicolon => .ends (.failed (unexpected ending .lBrace (token :: rest)) (token :: rest))
    | .lt => .behind (skipAngles ending token 1 rest) fun _ after => .next () after
    | .lParen | .lBracket | .attrOpen =>
      .behind (skipGroup ending token rest) fun _ after => .next () after
    | _ => .next () rest

theorem skipBaseClause_loop : Loop (baseClausePass ending) fun _ => skipBaseClause ending := by
  refine .of_pass fun _ tokens => ?_
  cases tokens with
  | nil =>
      rw [skipBaseClause]
      exact .ends _ _
  | cons token rest =>
      rw [baseClausePass, skipBaseClause_cons]
      cases token.kind with
      | lBrace | semicolon => exact .ends _ _
      | lt => exact .behind (skipAngles_suffix ending token 1 rest) fun _ after h => .next () h
      | lParen | lBracket | attrOpen =>
          exact .behind (skipGroup_suffix ending token rest) fun _ after h => .next () h
      | _ => exact .next () (List.suffix_refl rest)

def memberInitializersPass (_ : Unit) : List Token → Pass Unit (Read Unit)
  | [] => .ends (.failed (unexpected ending .lParen []) [])
  | token :: rest =>
    match token.kind with
    | .lParen | .lBrace =>
      .behind (skipGroup ending token rest) fun _ after =>
        if kindAt (skipOne .ellipsis after) = .comma then .next () (skipOne .ellipsis after).tail
        else .ends (.done () (skipOne .ellipsis after))
    | .lt => .behind (skipAngles ending token 1 rest) fun _ after => .next () after
    | .semicolon | .rBrace =>
      .ends (.failed (unexpected ending .lParen (token :: rest)) (token :: rest))
    | _ => .next () rest

theorem skipMemberInitializers_loop :
    Loop (memberInitializersPass ending) fun _ => skipMemberInitializers ending := by
  refine .of_pass fun _ tokens => ?_
  cases tokens with
  | nil =>
      rw [skipMemberInitializers]
      exact .ends _ _
  | cons token rest =>
      rw [memberInitializersPass, skipMemberInitializers_cons]
      cases token.kind with
      | lParen | lBrace =>
          refine .behind (skipGroup_suffix ending token rest) fun _ after h => ?_
          split
          · exact .next () (((List.tail_suffix _).trans (skipOne_suffix .ellipsis after)).trans h)
          · exact .ends _ _
      | lt => exact .behind (skipAngles_suffix ending token 1 rest) fun _ after h => .next () h
      | semicolon | rBrace => exact .ends _ _
      | _ => exact .next () (List.suffix_refl rest)

def functionEndPass (_ : Unit) : List Token → Pass Unit (Read Unit)
  | [] => .ends (.failed (unexpected ending .semicolon []) [])
  | token :: rest =>
    match token.kind with
    | .semicolon => .ends (.done () rest)
    | .lBrace =>
      .behind (skipGroup ending token rest) fun _ after =>
        .ends (.done () (skipOne .semicolon after))
    | .colon => .behind (skipMemberInitializers ending rest) fun _ after => .next () after
    | .lParen | .lBracket | .attrOpen =>
      .behind (skipGroup ending token rest) fun _ after => .next () after
    | .lt => .behind (skipAngles ending token 1 rest) fun _ after => .next () after
    | .rBrace => .ends (.failed (unexpected ending .semicolon (token :: rest)) (token :: rest))
    | _ => .next () rest

theorem skipFunctionEnd_loop : Loop (functionEndPass ending) fun _ => skipFunctionEnd ending := by
  refine .of_pass fun _ tokens => ?_
  cases tokens with
  | nil =>
      rw [skipFunctionEnd]
      exact .ends _ _
  | cons token rest =>
      have hgroup := skipGroup_suffix ending token rest
      rw [functionEndPass, skipFunctionEnd_cons]
      cases token.kind with
      | semicolon | rBrace => exact .ends _ _
      | lBrace => exact .behind hgroup fun _ after _ => .ends _ _
      | colon =>
          exact .behind (skipMemberInitializers_suffix ending rest) fun _ after h => .next () h
      | lParen | lBracket | attrOpen => exact .behind hgroup fun _ after h => .next () h
      | lt => exact .behind (skipAngles_suffix ending token 1 rest) fun _ after h => .next () h
      | _ => exact .next () (List.suffix_refl rest)

def specifiersPass (_ : Unit) : List Token → Pass Unit (Read (List AnnotationBlock))
  | [] => .ends (.done [] [])
  | token :: rest =>
    match token.kind with
    | .attrOpen =>
      .behind (attributeBlock ending token [] rest) fun block after =>
        .again (.map (block :: ·)) () after
    | .alignasKw => .behind (skipParens ending rest) fun _ after => .next () after
    | _ => .ends (.done [] (token :: rest))

theorem specifiers_loop : Loop (specifiersPass ending) fun _ => specifiers ending := by
  refine .of_pass fun _ tokens => ?_
  cases tokens with
  | nil =>
      rw [specifiers]
      exact .ends _ _
  | cons token rest =>
      rw [specifiersPass, specifiers_cons]
      cases token.kind with
      | attrOpen =>
          exact .behind (attributeBlock_suffix ending token [] rest) fun block after h =>
            .again _ () h
      | alignasKw => exact .behind (skipParens_suffix ending rest) fun _ after h => .next () h
      | _ => exact .ends _ _

end Declarations

def recoverPass (depth : Nat) : List Token → Pass Nat (List Token)
  | [] => .ends []
  | token :: rest =>
    match token.kind with
    | .semicolon => if depth = 0 then .ends rest else .next depth rest
    | .rBrace =>
      if depth = 0 then .ends (token :: rest)
      else if depth = 1 then .ends (skipOne .semicolon rest)
      else .next (depth - 1) rest
    | .attrOpen => .next (depth + 2) rest
    | kind =>
      if kind.isOpen then .next (depth + 1) rest
      else if kind.isClose then .next (depth - 1) rest
      else .next depth rest

theorem recover_loop : Loop recoverPass recover := by
  refine .of_pass fun depth tokens => ?_
  cases tokens with
  | nil => exact .ends _ _
  | cons token rest =>
      have hrest := List.suffix_refl rest
      rw [recoverPass, recover]
      cases token.kind with
      | semicolon =>
          dsimp only
          split
          · exact .ends _ _
          · exact .next depth hrest
      | rBrace =>
          dsimp only
          split
          · exact .ends _ _
          split
          · exact .ends _ _
          · exact .next _ hrest
      | attrOpen => exact .next _ hrest
      | lParen | lBrace | lBracket => exact .next _ hrest
      | rParen | rBracket => exact .next _ hrest
      | _ => exact .next depth hrest

section Scopes

variable {α : Type} (ending : Token)

-- What a reading with reports gives, without the bound that its type carries.
structure Outcome (α : Type) where
  outcome : Except ParseError α
  recovered : List ParseError
  rest : List Token

def Recorded.plain {bound : Nat} (read : Recorded α bound) : Outcome α :=
  ⟨read.outcome, read.recovered, read.rest⟩

-- The outcome behind the values and errors of an earlier declaration.
def Outcome.behind (values : List α) (errors : List ParseError) (last : Outcome (List α)) :
    Outcome (List α) :=
  ⟨last.outcome.map (values ++ ·), errors ++ last.recovered, last.rest⟩

theorem Recorded.Extends.plain {first last : Nat} {values : List α} {errors : List ParseError}
    {more : Recorded (List α) first} {all : Recorded (List α) last}
    (h : Recorded.Extends values errors more all) :
    all.plain = more.plain.behind values errors := by
  unfold Recorded.plain Outcome.behind
  rw [h.outcome, h.recovered, h.rest]

def bodyPass (name : Option String) (access : Access) :
    List Token → Pass Access (Outcome (List Member))
  | [] => .ends ⟨.error (.unexpectedEnd ending.span), [], []⟩
  | token :: rest =>
    if token.kind = .rBrace then .ends ⟨.ok [], [], rest⟩
    else
      let step := memberStep .tolerant ending name access (token :: rest)
      .again (.behind step.members step.errors) step.access (resume (token :: rest) step.next)

-- Where a scope or body goes on, there are fewer tokens than before.
theorem resume_forward {token : Token} {rest next : List Token} (h : next <:+ token :: rest) :
    resume (token :: rest) next <:+ rest := by
  have hsuffix := (resume_suffix h).trans h
  rcases List.suffix_cons_iff.mp hsuffix with hsame | hrest
  · have hlength := @resume_length token rest next
    rw [hsame, List.length_cons] at hlength
    omega
  · exact hrest

theorem classBody_loop (name : Option String) :
    Loop (bodyPass ending name) fun access tokens =>
      (classBody .tolerant ending name access tokens).plain := by
  refine .of_pass fun access tokens => ?_
  cases tokens with
  | nil =>
      rw [classBody]
      exact .ends _ _
  | cons token rest =>
      rw [bodyPass]
      split
      · next hbrace =>
        rw [classBody_rBrace .tolerant ending name access hbrace]
        exact .ends _ _
      · next hbrace =>
        have hstep := @memberStep_stays ending (token :: rest) .tolerant name access
          fun annotations isTemplate keyword inner _ =>
            classDeclaration_stays annotations isTemplate keyword inner
        have hnext := (MemberStep.next_suffix _).trans (Reported.suffix hstep)
        rw [(classBody_extends name access hbrace (.inl rfl)).plain]
        exact .again _ _ (resume_forward hnext)

def scopePass (nested : Bool) (_ : Unit) : List Token → Pass Unit (Outcome (List Entity))
  | [] => .ends ⟨.ok [], if nested then [.unexpectedEnd ending.span] else [], []⟩
  | token :: rest =>
    if token.kind = .rBrace then
      if nested then .ends ⟨.ok [], [], token :: rest⟩
      else .again (.behind [] [.unmatchedBrace token.span]) () rest
    else
      let item := scopeItem .tolerant ending (token :: rest)
      .again (.behind item.found item.errors) () (resume (token :: rest) item.next)

theorem scope_loop (nested : Bool) :
    Loop (scopePass ending nested) fun _ tokens =>
      (scope .tolerant ending nested tokens).plain := by
  refine .of_pass fun _ tokens => ?_
  cases tokens with
  | nil =>
      rw [scope_nil]
      cases nested <;> exact .ends _ _
  | cons token rest =>
      rw [scopePass]
      split
      · next hbrace =>
        cases nested with
        | true =>
            rw [scope_rBrace .tolerant ending true hbrace]
            exact .ends _ _
        | false =>
            rw [(scope_unmatched hbrace).plain]
            exact .again _ () (List.suffix_refl rest)
      · next hbrace =>
        have hitem := @scopeItem_stays ending (token :: rest) .tolerant
          fun inner _ => scope_stays .tolerant true inner
        have hnext := (Recorded.next_suffix _).trans (Reported.suffix hitem)
        rw [(scope_extends nested hbrace (.inl rfl)).plain]
        exact .again _ () (resume_forward hnext)

end Scopes

end Reflection.Header
