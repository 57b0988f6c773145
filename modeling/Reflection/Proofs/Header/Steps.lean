import Reflection.Header.Scopes

namespace Reflection.Header

@[simp] theorem kindAt_nil : kindAt [] = .eof := rfl

@[simp] theorem kindAt_cons (token : Token) (rest : List Token) :
    kindAt (token :: rest) = token.kind := rfl

-- The keywords that a reader looks behind.
def isTypeKey (kind : TokenKind) : Bool := isClassKey kind || kind = .enumKw

-- How a declaration of a class body is read.
inductive MemberForm where
  | label | classType | enumType | template | skipped | empty | closing | plain
  deriving DecidableEq

-- The first tokens of a declaration tell how it is read.
def memberForm (tokens : List Token) : MemberForm :=
  match kindAt tokens with
  | .publicKw | .protectedKw | .privateKw => .label
  | .classKw | .structKw | .unionKw => if startsTypeDeclaration tokens then .classType else .plain
  | .enumKw => if startsTypeDeclaration tokens then .enumType else .plain
  | .templateKw => .template
  | .usingKw | .typedefKw | .friendKw | .staticAssertKw => .skipped
  | .semicolon => .empty
  | .rBrace => .closing
  | _ => .plain

theorem member_cons (mode : ErrorMode) (ending : Token) (name : Option String) (access : Access)
    (annotations : List AnnotationBlock) (token : Token) (rest : List Token) :
    member mode ending name access annotations (token :: rest) =
      match memberForm (token :: rest) with
      | .label => .ofSkip (accessOf token.kind) (expect ending .colon rest)
          (Nat.le_trans (expect_suffix ending .colon rest).length_le (Nat.le_succ _))
      | .classType => .ofRecorded access
          (((classDeclaration mode ending annotations false token rest).map
            fun read => typeMembers access read.1 read.2).within (Nat.le_succ _))
      | .enumType => .ofRecorded access
          (((Recorded.ofRead (enumDeclaration ending annotations token rest)
            (enumDeclaration_suffix ending annotations token rest).length_le).map
              fun read => typeMembers access (.enumDecl read.1) read.2).within (Nat.le_succ _))
      | .template => .ofRecorded access
          (((templateDeclaration mode ending annotations rest).map
            fun entity => entity.toList.map .type).within (Nat.le_succ _))
      | .skipped => .ofSkip access (skipDeclaration ending .nothing (token :: rest))
          (skipDeclaration_suffix ending .nothing (token :: rest)).length_le
      | .empty => .nothing access rest (Nat.le_succ _)
      | .closing => .nothing access (token :: rest) (Nat.le_refl _)
      | .plain => .ofMembers access
          (plainMembers ⟨token.span, annotations, access, name⟩ ending (token :: rest))
          (plainMembers_suffix _ ending (token :: rest)).length_le := by
  rw [member]
  simp only [memberForm, kindAt_cons]
  cases token.kind <;> dsimp only <;> split <;> simp_all

-- How a declaration of a scope is read.
inductive ScopeForm where
  | namespaceDecl | inlineNamespace | linkage | classType | enumType | template | empty | closing
  | skipped
  deriving DecidableEq

def scopeForm (tokens : List Token) : ScopeForm :=
  match kindAt tokens with
  | .namespaceKw => .namespaceDecl
  | .inlineKw => if kindAt tokens.tail = .namespaceKw then .inlineNamespace else .skipped
  | .externKw =>
    if kindAt tokens.tail = .string ∧ kindAt tokens.tail.tail = .lBrace then .linkage
    else .skipped
  | .classKw | .structKw | .unionKw =>
    if startsTypeDeclaration tokens then .classType else .skipped
  | .enumKw => if startsTypeDeclaration tokens then .enumType else .skipped
  | .templateKw => .template
  | .semicolon => .empty
  | .rBrace => .closing
  | _ => .skipped

theorem kindAt_of_inlineNamespace {tokens : List Token} (h : scopeForm tokens = .inlineNamespace) :
    kindAt tokens.tail = .namespaceKw := by
  unfold scopeForm at h
  cases hkind : kindAt tokens <;> rw [hkind] at h <;> dsimp only at h <;> try split at h
  all_goals first
    | assumption
    | cases h

theorem kindAt_of_linkage {tokens : List Token} (h : scopeForm tokens = .linkage) :
    kindAt tokens.tail = .string ∧ kindAt tokens.tail.tail = .lBrace := by
  unfold scopeForm at h
  cases hkind : kindAt tokens <;> rw [hkind] at h <;> dsimp only at h <;> try split at h
  all_goals first
    | assumption
    | cases h

theorem length_tail_le (token : Token) (rest : List Token) :
    rest.tail.length ≤ (token :: rest).length := by
  simp only [List.length_tail, List.length_cons]
  omega

theorem length_tail_tail_le (token : Token) (rest : List Token) :
    rest.tail.tail.length ≤ (token :: rest).length := by
  simp only [List.length_tail, List.length_cons]
  omega

theorem scopeDeclaration_cons (mode : ErrorMode) (ending : Token)
    (annotations : List AnnotationBlock) (token : Token) (rest : List Token) :
    scopeDeclaration mode ending annotations (token :: rest) =
      match scopeForm (token :: rest) with
      | .namespaceDecl => (namespaceDeclaration mode ending false token rest).within (Nat.le_succ _)
      | .inlineNamespace =>
        (namespaceDeclaration mode ending true (rest.headD ending) rest.tail).within
          (length_tail_le token rest)
      | .linkage =>
        ((scope mode ending true rest.tail.tail).close ending fun entities _ => entities).within
          (length_tail_tail_le token rest)
      | .classType =>
        ((classDeclaration mode ending annotations false token rest).map
          fun read => [read.1]).within (Nat.le_succ _)
      | .enumType =>
        ((Recorded.ofRead (enumDeclaration ending annotations token rest)
          (enumDeclaration_suffix ending annotations token rest).length_le).map
            fun read => [.enumDecl read.1]).within (Nat.le_succ _)
      | .template =>
        ((templateDeclaration mode ending annotations rest).map Option.toList).within
          (Nat.le_succ _)
      | .empty => ⟨.ok [], [], rest, Nat.le_succ _⟩
      | .closing => ⟨.ok [], [], token :: rest, Nat.le_refl _⟩
      | .skipped => (Recorded.ofRead (skipDeclaration ending .nothing (token :: rest))
          (skipDeclaration_suffix ending .nothing (token :: rest)).length_le).map fun _ => [] := by
  rw [scopeDeclaration]
  simp only [scopeForm, kindAt_cons, List.tail_cons]
  cases token.kind <;> dsimp only <;> split <;> rename_i h <;> simp [h]

variable {α : Type} {bound : Nat}

namespace Recorded

-- What a declaration gives to the scope around it.
def found (read : Recorded (List α) bound) : List α :=
  match read.outcome with
  | .ok values => values
  | .error _ => []

-- All errors of a reading, the one that ended it last.
def errors (read : Recorded α bound) : List ParseError :=
  match read.outcome with
  | .ok _ => read.recovered
  | .error error => read.recovered ++ [error]

-- Where a scope goes on after a declaration.
def next (read : Recorded α bound) : List Token :=
  match read.outcome with
  | .ok _ => read.rest
  | .error _ => recover 0 read.rest

theorem errors_behind (earlier : List ParseError) (read : Recorded α bound) :
    (read.behind earlier).errors = earlier ++ read.errors := by
  unfold errors behind
  cases read.outcome
  · exact List.append_assoc _ _ _
  · rfl

theorem next_suffix (read : Recorded α bound) : read.next <:+ read.rest := by
  unfold next
  split
  · exact List.suffix_refl _
  · exact recover_suffix 0 read.rest

-- The same reading with values and errors in front: what a scope gives from one of its
-- declarations on is what the declaration gives, and then what the others give.
structure Extends {others whole : Nat} (values : List α) (errors : List ParseError)
    (more : Recorded (List α) others) (all : Recorded (List α) whole) : Prop where
  outcome : all.outcome = more.outcome.map (values ++ ·)
  recovered : all.recovered = errors ++ more.recovered
  rest : all.rest = more.rest

namespace Extends

variable {first second third : Nat} {values more : List α} {errors reports : List ParseError}
  {tail : Recorded (List α) first} {read : Recorded (List α) second}
  {all : Recorded (List α) third}

theorem refl (read : Recorded (List α) bound) : Extends [] [] read read := by
  refine ⟨?_, rfl, rfl⟩
  cases read.outcome <;> rfl

theorem symm (h : Extends [] [] read all) : Extends [] [] all read := by
  refine ⟨?_, h.recovered.symm, h.rest.symm⟩
  rw [h.outcome]
  cases read.outcome <;> rfl

-- With nothing in front, both readings give and report the same.
theorem outcome_eq (h : Extends [] [] read all) : all.outcome = read.outcome := by
  rw [h.outcome]
  cases read.outcome <;> rfl

theorem trans (hall : Extends values errors read all) (hread : Extends more reports tail read) :
    Extends (values ++ more) (errors ++ reports) tail all := by
  refine ⟨?_, ?_, hall.rest.trans hread.rest⟩
  · rw [hall.outcome, hread.outcome]
    cases tail.outcome with
    | error error => rfl
    | ok others => exact congrArg Except.ok (List.append_assoc values more others).symm
  · rw [hall.recovered, hread.recovered, List.append_assoc]

theorem errors_eq (h : Extends values errors read all) : all.errors = errors ++ read.errors := by
  unfold Recorded.errors
  rw [h.outcome, h.recovered]
  cases read.outcome
  · exact List.append_assoc _ _ _
  · rfl

end Extends

end Recorded

theorem MemberStep.next_suffix (step : MemberStep bound) : step.next <:+ step.rest := by
  unfold MemberStep.next
  split
  · exact recover_suffix 0 step.rest
  · exact List.suffix_refl step.rest

-- Where a scope goes on is behind the last declaration.
theorem resume_suffix {tokens rest : List Token} (h : rest <:+ tokens) :
    resume tokens rest <:+ rest := by
  unfold resume
  split
  · exact List.suffix_refl rest
  · next hle =>
    have hlength := Nat.le_antisymm h.length_le (Nat.le_of_not_lt hle)
    have hsame : rest = tokens := h.eq_of_length hlength
    exact hsame ▸ List.tail_suffix tokens

theorem scope_nil (mode : ErrorMode) (ending : Token) (nested : Bool) :
    scope mode ending nested [] =
      match nested, mode with
      | false, _ => ⟨.ok [], [], [], Nat.le_refl _⟩
      | true, .fatal => ⟨.error (.unexpectedEnd ending.span), [], [], Nat.le_refl _⟩
      | true, .tolerant => ⟨.ok [], [.unexpectedEnd ending.span], [], Nat.le_refl _⟩ := by
  cases nested <;> cases mode <;> exact scope.eq_def _ _ _ _

theorem scope_rBrace (mode : ErrorMode) (ending : Token) (nested : Bool) {token : Token}
    (h : token.kind = .rBrace) (rest : List Token) :
    scope mode ending nested (token :: rest) =
      match nested, mode with
      | true, _ => ⟨.ok [], [], token :: rest, Nat.le_refl _⟩
      | false, .fatal => ⟨.error (.unmatchedBrace token.span), [], rest, Nat.le_succ _⟩
      | false, .tolerant =>
        ((scope .tolerant ending false rest).behind [.unmatchedBrace token.span]).within
          (Nat.le_succ _) := by
  cases nested <;> cases mode <;> exact (scope.eq_def _ _ _ _).trans (if_pos h)

theorem scope_unmatched {ending token : Token} {rest : List Token} (h : token.kind = .rBrace) :
    Recorded.Extends [] [.unmatchedBrace token.span] (scope .tolerant ending false rest)
      (scope .tolerant ending false (token :: rest)) := by
  rw [scope_rBrace .tolerant ending false h rest]
  refine ⟨?_, rfl, rfl⟩
  dsimp only [Recorded.within, Recorded.behind]
  cases (scope .tolerant ending false rest).outcome <;> rfl

-- A scope goes on after a declaration, unless its error is fatal.
theorem scope_extends {mode : ErrorMode} {ending token : Token} (nested : Bool)
    {rest : List Token} (h : token.kind ≠ .rBrace)
    (hmode : mode = .tolerant ∨
      ∃ found, (scopeItem mode ending (token :: rest)).outcome = .ok found) :
    Recorded.Extends (scopeItem mode ending (token :: rest)).found
      (scopeItem mode ending (token :: rest)).errors
      (scope mode ending nested
        (resume (token :: rest) (scopeItem mode ending (token :: rest)).next))
      (scope mode ending nested (token :: rest)) := by
  have hscope := scope.eq_def mode ending nested (token :: rest)
  simp only [if_neg h] at hscope
  split at hscope
  · next error hstep =>
    obtain hmode | ⟨found, hfound⟩ := hmode
    · cases hmode
    · rw [hstep] at hfound
      cases hfound
  · refine ⟨?_, ?_, ?_⟩ <;>
      simp only [hscope, Recorded.within, Recorded.behind, Recorded.map, Recorded.found,
        Recorded.errors, Recorded.next]
    · cases (scopeItem _ ending (token :: rest)).outcome <;> rfl
    · cases (scopeItem _ ending (token :: rest)).outcome <;> simp
    · cases (scopeItem _ ending (token :: rest)).outcome <;> rfl

theorem scope_fatal_error {ending token : Token} (nested : Bool) {rest : List Token}
    (h : token.kind ≠ .rBrace) {error : ParseError}
    (herror : (scopeItem .fatal ending (token :: rest)).outcome = .error error) :
    (scope .fatal ending nested (token :: rest)).outcome = .error error ∧
      (scope .fatal ending nested (token :: rest)).recovered =
        (scopeItem .fatal ending (token :: rest)).recovered := by
  have hscope := scope.eq_def .fatal ending nested (token :: rest)
  simp only [if_neg h] at hscope
  split at hscope
  · next other hstep _ =>
    rw [hstep] at herror
    cases herror
    rw [hscope]
    exact ⟨rfl, rfl⟩
  · next hne => exact (hne error herror rfl).elim

def MemberStep.errors (step : MemberStep bound) : List ParseError :=
  step.recovered ++ step.error.toList

-- A class body goes on after a declaration, unless its error is fatal.
theorem classBody_extends {mode : ErrorMode} {ending token : Token} (name : Option String)
    (access : Access) {rest : List Token} (h : token.kind ≠ .rBrace)
    (hmode : mode = .tolerant ∨
      (memberStep mode ending name access (token :: rest)).error = none) :
    Recorded.Extends (memberStep mode ending name access (token :: rest)).members
      (memberStep mode ending name access (token :: rest)).errors
      (classBody mode ending name (memberStep mode ending name access (token :: rest)).access
        (resume (token :: rest) (memberStep mode ending name access (token :: rest)).next))
      (classBody mode ending name access (token :: rest)) := by
  have hbody := classBody.eq_def mode ending name access (token :: rest)
  simp only [if_neg h] at hbody
  split at hbody
  · next error hstep =>
    obtain hmode | hnone := hmode
    · cases hmode
    · rw [hstep] at hnone
      cases hnone
  · refine ⟨?_, ?_, ?_⟩ <;> rw [hbody] <;> rfl

-- Where a declaration takes at least one token, the body goes on right behind it.
theorem classBody_next {ending token : Token} (name : Option String) (access : Access)
    {rest next : List Token} (h : token.kind ≠ .rBrace)
    (hnext : (memberStep .tolerant ending name access (token :: rest)).next = next)
    (hlength : next.length < (token :: rest).length) :
    Recorded.Extends (memberStep .tolerant ending name access (token :: rest)).members
      (memberStep .tolerant ending name access (token :: rest)).errors
      (classBody .tolerant ending name
        (memberStep .tolerant ending name access (token :: rest)).access next)
      (classBody .tolerant ending name access (token :: rest)) := by
  have hextends := @classBody_extends .tolerant ending token name access rest h (.inl rfl)
  rwa [hnext, resume, if_pos hlength] at hextends

theorem classBody_rBrace (mode : ErrorMode) (ending : Token) (name : Option String)
    (access : Access) {token : Token} (h : token.kind = .rBrace) (rest : List Token) :
    classBody mode ending name access (token :: rest) = ⟨.ok [], [], rest, Nat.le_succ _⟩ := by
  rw [classBody.eq_def]
  simp only [if_pos h]

theorem classBody_fatal_error {ending token : Token} (name : Option String) (access : Access)
    {rest : List Token} (h : token.kind ≠ .rBrace) {error : ParseError}
    (herror : (memberStep .fatal ending name access (token :: rest)).error = some error) :
    (classBody .fatal ending name access (token :: rest)).outcome = .error error ∧
      (classBody .fatal ending name access (token :: rest)).recovered =
        (memberStep .fatal ending name access (token :: rest)).recovered := by
  have hbody := classBody.eq_def .fatal ending name access (token :: rest)
  simp only [if_neg h] at hbody
  split at hbody
  · next other hstep _ =>
    rw [hstep] at herror
    cases herror
    rw [hbody]
    exact ⟨rfl, rfl⟩
  · next hne => exact (hne error herror rfl).elim

theorem parse_of_ok {mode : ErrorMode} {text : List Char} {entities : List Entity}
    (h : (scope mode (scan text).ending false (scan text).items).outcome = .ok entities) :
    parse mode text = .ok ⟨⟨entities, (spanAt (scan text).ending (scan text).items).merge
        (spanAt (scan text).ending
          (scope mode (scan text).ending false (scan text).items).rest)⟩,
      (scope mode (scan text).ending false (scan text).items).recovered⟩ := by
  simp only [parse, parseTokens, h]
  rfl

theorem parse_of_error {mode : ErrorMode} {text : List Char} {error : ParseError}
    (h : (scope mode (scan text).ending false (scan text).items).outcome = .error error) :
    parse mode text = .error error := by
  simp only [parse, parseTokens, h]
  rfl

-- A text without anything in it declares nothing.
theorem parse_nil (mode : ErrorMode) : parse mode [] = .ok ⟨⟨[], ⟨0, 0⟩⟩, []⟩ := by
  have hscan : scan [] = ⟨[], ⟨.eof, 0, [], []⟩⟩ := by rw [scan, Reflection.scan, scanFrom]
  rw [parse, hscan, parseTokens]
  simp only [scope_nil]
  cases mode <;> rfl

end Reflection.Header
