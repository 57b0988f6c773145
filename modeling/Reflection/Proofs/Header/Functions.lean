import Mathlib.Tactic.FinCases
import Reflection.Proofs.Header.Nested

namespace Reflection.Header

variable {ending : Token}

-- A part of a function definition outside of braces.
inductive Portion where
  | single (token : Token) (hopen : token.kind.isOpen = false) (hclose : token.kind.isClose = false)
      (hsemicolon : token.kind ≠ .semicolon) (hnamespace : token.kind ≠ .namespaceKw)
  | group (kind : TokenKind) (tokens : List Token) (hgroup : WholeGroup kind tokens)
      (hbrace : kind ≠ .lBrace)

namespace Portion

def tokens : Portion → List Token
  | single token .. => [token]
  | group _ tokens .. => tokens

def isEquals : Portion → Bool
  | single token .. => token.kind = .eq
  | group .. => false

-- What has been seen behind a portion.
def pass (passed : Passed) : Portion → Passed
  | single token .. => if token.kind = .eq then { passed with equals := true } else passed
  | group kind .. =>
    if kind = .lParen then { passed with parameters := passed.parameters || !passed.equals }
    else passed

end Portion

-- A member initializer with the colon or comma in front of it.
structure Initializer where
  separator : Token
  name : List Portion
  kind : TokenKind
  group : List Token
  expansion : Option Token
  isSeparator : separator.kind = .colon ∨ separator.kind = .comma
  isGroup : WholeGroup kind group
  isInitializer : kind = .lParen ∨ kind = .lBrace
  isExpansion : ∀ token ∈ expansion, token.kind = .ellipsis

namespace Initializer

def tokens (initializer : Initializer) : List Token :=
  initializer.separator :: (initializer.name.flatMap Portion.tokens ++
    (initializer.group ++ initializer.expansion.toList))

def isBraced (initializer : Initializer) : Bool := initializer.kind = .lBrace

-- What has been seen behind an initializer; braces may have ended the declaration.
def pass (passed : Passed) (initializer : Initializer) : Passed :=
  let named := initializer.name.foldl Portion.pass passed
  if initializer.kind = .lParen then
    { named with parameters := named.parameters || !named.equals }
  else if named.parameters && !named.equals then .nothing
  else named

end Initializer

-- A function definition: the first token of its return type or name, what follows up to the
-- parameters, the parameters, what stands behind them, the member initializers of a constructor,
-- and the body.
structure FunctionDefinition where
  first : Token
  head : List Portion
  parameters : List Token
  qualifiers : List Portion
  initializers : List Initializer
  body : List Token
  isFirst : first.kind.isOpen = false ∧ first.kind.isClose = false ∧
    first.kind ∉ [.semicolon, .namespaceKw, .templateKw, .docComment, .eq]
  isParameters : WholeGroup .lParen parameters
  isBody : WholeGroup .lBrace body

namespace FunctionDefinition

-- The definition between its first token and its body.
def middle (function : FunctionDefinition) : List Token :=
  function.head.flatMap Portion.tokens ++ (function.parameters ++
    (function.qualifiers.flatMap Portion.tokens ++
      function.initializers.flatMap Initializer.tokens))

def tokens (function : FunctionDefinition) : List Token :=
  function.first :: (function.middle ++ function.body)

-- Does a `=` stand outside of all groups?
def hasEquals (function : FunctionDefinition) : Bool :=
  function.head.any Portion.isEquals || function.qualifiers.any Portion.isEquals ||
    function.initializers.any fun initializer => initializer.name.any Portion.isEquals

-- Is the last member initializer one in braces?
def endsBraced (function : FunctionDefinition) : Bool :=
  function.initializers.getLast?.any Initializer.isBraced

-- Does the definition begin like one of a type?
def startsType (function : FunctionDefinition) : Bool :=
  isTypeKey function.first.kind && startsTypeDeclaration function.tokens

-- What has been seen in front of the body.
def passed (function : FunctionDefinition) : Passed :=
  let behind := function.head.foldl Portion.pass .nothing
  function.initializers.foldl Initializer.pass (function.qualifiers.foldl Portion.pass
    { behind with parameters := behind.parameters || !behind.equals })

end FunctionDefinition

section Passing

variable {passed : Passed}

theorem skipDeclaration_plain {token : Token} (hopen : token.kind.isOpen = false)
    (hbrace : token.kind ≠ .rBrace) (hsemicolon : token.kind ≠ .semicolon)
    (hequals : token.kind ≠ .eq) (rest : List Token) :
    skipDeclaration ending passed (token :: rest) = skipDeclaration ending passed rest := by
  rw [skipDeclaration_cons]
  cases hkind : token.kind <;> simp_all [TokenKind.isOpen]

theorem skipDeclaration_parens {group : List Token} (h : WholeGroup .lParen group)
    (rest : List Token) :
    skipDeclaration ending passed (group ++ rest) =
      skipDeclaration ending { passed with parameters := passed.parameters || !passed.equals }
        rest := by
  obtain ⟨opening, inner, htokens, hkind, _, hskip⟩ := @WholeGroup.skip ending _ _ h rest
  rw [htokens, skipDeclaration_cons, hkind, hskip]
  rfl

theorem skipDeclaration_braces {group : List Token} (h : WholeGroup .lBrace group)
    (rest : List Token) :
    skipDeclaration ending passed (group ++ rest) =
      if passed.parameters && !passed.equals then .done () (skipOne .semicolon rest)
      else skipDeclaration ending passed rest := by
  obtain ⟨opening, inner, htokens, hkind, _, hskip⟩ := @WholeGroup.skip ending _ _ h rest
  rw [htokens, skipDeclaration_cons, hkind, hskip]
  rfl

theorem Portion.skip (portion : Portion) (rest : List Token) :
    skipDeclaration ending passed (portion.tokens ++ rest) =
      skipDeclaration ending (portion.pass passed) rest := by
  cases portion with
  | single token hopen hclose hsemicolon hnamespace =>
      rw [Portion.tokens, List.singleton_append, Portion.pass]
      by_cases hequals : token.kind = .eq
      · rw [if_pos hequals, skipDeclaration_cons, hequals]
      · rw [if_neg hequals, skipDeclaration_plain hopen ?_ hsemicolon hequals]
        intro hkind
        rw [hkind] at hclose
        cases hclose
  | group kind tokens hgroup hbrace =>
      rw [Portion.tokens, Portion.pass]
      by_cases hparen : kind = .lParen
      · subst hparen
        exact skipDeclaration_parens hgroup rest
      · obtain ⟨opening, inner, htokens, hkind, hopen, hskip⟩ :=
          @WholeGroup.skip ending _ _ hgroup rest
        rw [htokens, skipDeclaration_cons, hkind, hskip, if_neg hparen]
        cases kind <;> first
          | exact absurd rfl hparen
          | exact absurd rfl hbrace
          | rfl
          | cases hopen

theorem skip_portions (portions : List Portion) (rest : List Token) :
    skipDeclaration ending passed (portions.flatMap Portion.tokens ++ rest) =
      skipDeclaration ending (portions.foldl Portion.pass passed) rest := by
  induction portions generalizing passed with
  | nil => rfl
  | cons portion portions ih =>
      rw [List.flatMap_cons, List.append_assoc, Portion.skip, ih, List.foldl_cons]

-- What is skipped successfully has at least one token.
theorem skipDeclaration_behind {token : Token} {rest after : List Token}
    (h : skipDeclaration ending passed (token :: rest) = .done () after) : after <:+ rest := by
  rw [skipDeclaration_cons] at h
  have hgroup : ∀ {next : List Token → Read Unit}, (∀ tokens, (next tokens).rest <:+ tokens) →
      (skipGroup ending token rest).bind (fun _ tokens => next tokens) = .done () after →
      after <:+ rest := by
    intro next hnext hread
    have hsuffix := Read.suffix_bind (skipGroup_suffix ending token rest)
      fun _ tokens => hnext tokens
    rw [hread] at hsuffix
    exact hsuffix
  have hplain : ∀ {passed : Passed}, skipDeclaration ending passed rest = .done () after →
      after <:+ rest := by
    intro passed hread
    exact Read.suffix_of_done (skipDeclaration_suffix ending passed rest) hread
  cases hkind : token.kind with
  | semicolon =>
      rw [hkind] at h
      cases h
      exact List.suffix_refl _
  | rBrace =>
      rw [hkind] at h
      cases h
  | lParen | lBracket | attrOpen =>
      rw [hkind] at h
      exact hgroup (skipDeclaration_suffix ending _) h
  | lBrace =>
      rw [hkind] at h
      refine hgroup (fun tokens => ?_) h
      split
      · exact skipOne_suffix .semicolon tokens
      · exact skipDeclaration_suffix ending passed tokens
  | _ =>
      rw [hkind] at h
      exact hplain h

-- The tokens of a declaration that is read as one to skip.
def StartsSkipped (tokens : List Token) : Prop :=
  scopeForm tokens = .skipped ∧ kindAt tokens ∉ [.docComment, .attrOpen]

theorem startsSkipped_of_kind {token : Token} (h : token.kind ∈ [.colon, .comma, .ellipsis])
    (rest : List Token) : StartsSkipped (token :: rest) := by
  rw [StartsSkipped, scopeForm, kindAt_cons]
  generalize token.kind = kind at h
  fin_cases h <;> exact ⟨rfl, by decide⟩

theorem startsSkipped_of_lBrace {tokens : List Token} (h : kindAt tokens = .lBrace) :
    StartsSkipped tokens := by
  rw [StartsSkipped, scopeForm, h]
  exact ⟨rfl, by decide⟩

-- A declaration that gives nothing adds nothing to its scope.
theorem scope_nothing {mode : ErrorMode} (nested : Bool) {token : Token} {rest after : List Token}
    (hplain : token.kind ∉ [.docComment, .attrOpen, .rBrace])
    (hread : (scopeDeclaration mode ending [] (token :: rest)).outcome = .ok [] ∧
      (scopeDeclaration mode ending [] (token :: rest)).recovered = [] ∧
        (scopeDeclaration mode ending [] (token :: rest)).rest = after)
    (hsuffix : after <:+ rest) :
    Recorded.Extends [] [] (scope mode ending nested after)
      (scope mode ending nested (token :: rest)) := by
  simp only [List.mem_cons, List.not_mem_nil, or_false, not_or] at hplain
  obtain ⟨houtcome, hrecovered, hrest⟩ := hread
  have hitem := @scopeItem_eq_after ending (token :: rest) mode
  rw [Recorded.after_done (leadingAnnotations_plain (by simp [hplain]) rest)] at hitem
  have hout : (scopeItem mode ending (token :: rest)).outcome = .ok [] := by
    rw [hitem, ← houtcome]
    rfl
  have hreports : (scopeItem mode ending (token :: rest)).recovered = [] := by
    rw [hitem, ← hrecovered]
    rfl
  have hafter : (scopeItem mode ending (token :: rest)).rest = after := by
    rw [hitem, ← hrest]
    rfl
  have hlength : after.length < (token :: rest).length := Nat.lt_succ_of_le hsuffix.length_le
  have hextends := @scope_extends mode ending token nested rest hplain.2.2 (.inr ⟨_, hout⟩)
  rw [Recorded.found, Recorded.errors, Recorded.next, hout, hreports, hafter, resume,
    if_pos hlength] at hextends
  exact hextends

theorem scope_skipped {mode : ErrorMode} (nested : Bool) {tokens after : List Token}
    (hstarts : StartsSkipped tokens)
    (hskip : skipDeclaration ending .nothing tokens = .done () after) :
    Recorded.Extends [] [] (scope mode ending nested after) (scope mode ending nested tokens) := by
  obtain ⟨hform, hplain⟩ := hstarts
  cases tokens with
  | nil =>
      rw [skipDeclaration] at hskip
      cases hskip
  | cons token rest =>
      have hclose : token.kind ≠ .rBrace := by
        intro hkind
        rw [scopeForm, kindAt_cons, hkind] at hform
        cases hform
      refine scope_nothing nested (by simp_all) ?_ (skipDeclaration_behind hskip)
      rw [scopeDeclaration_cons, hform]
      dsimp only
      rw [Recorded.ofRead_done hskip]
      exact ⟨rfl, rfl, rfl⟩

theorem scope_skipOne (mode : ErrorMode) (nested : Bool) (tokens : List Token) :
    Recorded.Extends [] [] (scope mode ending nested (skipOne .semicolon tokens))
      (scope mode ending nested tokens) := by
  by_cases hkind : kindAt tokens = .semicolon
  · rw [skipOne, if_pos hkind]
    cases tokens with
    | nil => cases hkind
    | cons token rest =>
        rw [kindAt_cons] at hkind
        refine scope_nothing nested (by simp [hkind]) ?_ (List.suffix_refl rest)
        have hform : scopeForm (token :: rest) = .empty := by rw [scopeForm, kindAt_cons, hkind]
        rw [scopeDeclaration_cons, hform]
        exact ⟨rfl, rfl, rfl⟩
  · rw [skipOne, if_neg hkind]
    exact .refl _

theorem skipDeclaration_expansion {expansion : Option Token}
    (h : ∀ token ∈ expansion, token.kind = .ellipsis) (rest : List Token) :
    skipDeclaration ending passed (expansion.toList ++ rest) =
      skipDeclaration ending passed rest := by
  cases expansion with
  | none => rfl
  | some token =>
      have hkind := h token rfl
      exact skipDeclaration_plain (by rw [hkind]; rfl) (by simp [hkind]) (by simp [hkind])
        (by simp [hkind]) rest

namespace Initializer

variable (initializer : Initializer)

-- Do the braces of the initializer end the declaration?
def ends (passed : Passed) : Bool :=
  let named := initializer.name.foldl Portion.pass passed
  initializer.isBraced && (named.parameters && !named.equals)

theorem skip_name (rest : List Token) :
    skipDeclaration ending passed (initializer.tokens ++ rest) =
      skipDeclaration ending (initializer.name.foldl Portion.pass passed)
        (initializer.group ++ (initializer.expansion.toList ++ rest)) := by
  rw [tokens, List.cons_append, List.append_assoc, List.append_assoc, ← skip_portions]
  rcases initializer.isSeparator with hkind | hkind <;>
    exact skipDeclaration_plain (by rw [hkind]; rfl) (by simp [hkind]) (by simp [hkind])
      (by simp [hkind]) _

theorem skip (h : initializer.ends passed = false) (rest : List Token) :
    skipDeclaration ending passed (initializer.tokens ++ rest) =
      skipDeclaration ending (initializer.pass passed) rest := by
  have hgroup := initializer.isGroup
  rw [skip_name, pass]
  rcases initializer.isInitializer with hkind | hkind
  · rw [hkind] at hgroup
    rw [if_pos hkind, skipDeclaration_parens hgroup,
      skipDeclaration_expansion initializer.isExpansion]
  · rw [hkind] at hgroup
    have hopen : ((initializer.name.foldl Portion.pass passed).parameters &&
        !(initializer.name.foldl Portion.pass passed).equals) = false := by
      simpa [ends, isBraced, hkind] using h
    simp only [skipDeclaration_braces hgroup, hopen]
    rw [if_neg (by simp), if_neg (by simp [hkind]), if_neg (by simp),
      skipDeclaration_expansion initializer.isExpansion]

theorem skip_ends (h : initializer.ends passed = true) {rest : List Token}
    (hrest : kindAt rest ≠ .semicolon) :
    initializer.pass passed = .nothing ∧
      skipDeclaration ending passed (initializer.tokens ++ rest) =
        .done () (initializer.expansion.toList ++ rest) := by
  have hgroup := initializer.isGroup
  obtain ⟨hbraced, hclosed⟩ := Bool.and_eq_true_iff.mp h
  have hkind : initializer.kind = .lBrace := of_decide_eq_true hbraced
  rw [hkind] at hgroup
  have hbehind : kindAt (initializer.expansion.toList ++ rest) ≠ .semicolon := by
    cases hexpansion : initializer.expansion with
    | none => exact hrest
    | some token => simp [initializer.isExpansion token hexpansion]
  constructor
  · rw [pass, if_neg (by simp [hkind])]
    exact if_pos hclosed
  · rw [skip_name, skipDeclaration_braces hgroup, if_pos hclosed, skipOne, if_neg hbehind]

end Initializer

-- A scope goes on where what is skipped behind the initializers ends. Braces of an initializer may
-- have ended the declaration before, and the next one begins behind them.
theorem scope_initializers {mode : ErrorMode} (nested : Bool) {initializers : List Initializer}
    {front tail after : List Token}
    (hreads : ∀ tokens, skipDeclaration ending .nothing (front ++ tokens) =
      skipDeclaration ending passed tokens)
    (hskip : skipDeclaration ending (initializers.foldl Initializer.pass passed) tail =
      .done () after)
    (hbrace : kindAt tail = .lBrace)
    (hstarts : front = [] ∨
      StartsSkipped (front ++ (initializers.flatMap Initializer.tokens ++ tail))) :
    Recorded.Extends [] [] (scope mode ending nested after)
      (scope mode ending nested (front ++ (initializers.flatMap Initializer.tokens ++ tail))) := by
  induction initializers generalizing front passed with
  | nil =>
      have hwhole : StartsSkipped (front ++ tail) := by
        rcases hstarts with rfl | hstarts
        · exact startsSkipped_of_lBrace hbrace
        · exact hstarts
      refine scope_skipped nested hwhole ?_
      rw [List.flatMap_nil, List.nil_append, hreads]
      exact hskip
  | cons initializer initializers ih =>
      rw [List.foldl_cons] at hskip
      rw [List.flatMap_cons, List.append_assoc] at hstarts ⊢
      have hwhole : StartsSkipped (front ++ (initializer.tokens ++
          (initializers.flatMap Initializer.tokens ++ tail))) := by
        rcases hstarts with rfl | hstarts
        · refine startsSkipped_of_kind ?_ _
          rcases initializer.isSeparator with hkind | hkind <;> simp [hkind]
        · exact hstarts
      cases hends : initializer.ends passed with
      | false =>
          have hbehind : ∀ tokens,
              skipDeclaration ending .nothing ((front ++ initializer.tokens) ++ tokens) =
                skipDeclaration ending (initializer.pass passed) tokens := by
            intro tokens
            rw [List.append_assoc, hreads, initializer.skip hends]
          rw [← List.append_assoc] at hwhole ⊢
          exact ih hbehind hskip (.inr hwhole)
      | true =>
          have hnext : kindAt (initializers.flatMap Initializer.tokens ++ tail) ≠ .semicolon := by
            cases initializers with
            | nil => simp [hbrace]
            | cons next initializers =>
                rcases next.isSeparator with hkind | hkind <;>
                  simp [Initializer.tokens, hkind]
          obtain ⟨hpass, hended⟩ := @initializer.skip_ends ending passed hends _ hnext
          rw [hpass] at hskip
          refine (@scope_skipped ending mode nested _ _ hwhole (by rw [hreads, hended])).trans
            (ih (fun tokens => skipDeclaration_expansion initializer.isExpansion tokens) hskip ?_)
          cases hexpansion : initializer.expansion with
          | none => exact .inl rfl
          | some token =>
              have hkind := initializer.isExpansion token hexpansion
              exact .inr (startsSkipped_of_kind (by simp [hkind]) _)

end Passing

namespace Portion

variable (portion : Portion)

theorem nested_append {rest : List Token} (h : Nested rest) : Nested (portion.tokens ++ rest) := by
  cases portion with
  | single token hopen hclose _ _ => exact .token hopen hclose h
  | group kind tokens hgroup _ => exact hgroup.nested_append h

-- A portion begins neither braces nor a namespace.
theorem kindAt_append (rest : List Token) :
    kindAt (portion.tokens ++ rest) ∉ [.namespaceKw, .lBrace] := by
  cases portion with
  | single token hopen hclose hsemicolon hnamespace =>
      have hbrace : token.kind ≠ .lBrace := fun hkind => by simp [hkind, TokenKind.isOpen] at hopen
      simp [tokens, hnamespace, hbrace]
  | group kind tokens hgroup hbrace =>
      have hnamespace : kind ≠ .namespaceKw := fun hkind => by
        have hopen := hgroup.isOpen
        simp [hkind, TokenKind.isOpen] at hopen
      rw [Portion.tokens, hgroup.kindAt_append]
      simp [hnamespace, hbrace]

variable {passed : Passed}

theorem equals_pass : (portion.pass passed).equals = (passed.equals || portion.isEquals) := by
  cases portion with
  | single token hopen hclose hsemicolon hnamespace =>
      by_cases hkind : token.kind = .eq <;> simp [pass, isEquals, hkind]
  | group kind tokens hgroup hbrace =>
      by_cases hkind : kind = .lParen <;> simp [pass, isEquals, hkind]

-- Parameters that have been seen stay so.
theorem parameters_pass (h : passed.parameters = true) :
    (portion.pass passed).parameters = true := by
  cases portion with
  | single token hopen hclose hsemicolon hnamespace =>
      by_cases hkind : token.kind = .eq <;> simp [pass, hkind, h]
  | group kind tokens hgroup hbrace =>
      by_cases hkind : kind = .lParen <;> simp [pass, hkind, h]

theorem equals_foldl (portions : List Portion) :
    (portions.foldl pass passed).equals = (passed.equals || portions.any isEquals) := by
  induction portions generalizing passed with
  | nil => simp
  | cons portion portions ih =>
      rw [List.foldl_cons, ih, equals_pass, List.any_cons, Bool.or_assoc]

theorem parameters_foldl (portions : List Portion) (h : passed.parameters = true) :
    (portions.foldl pass passed).parameters = true := by
  induction portions generalizing passed with
  | nil => exact h
  | cons portion portions ih => exact ih (portion.parameters_pass h)

theorem nested_portions (portions : List Portion) {rest : List Token} (h : Nested rest) :
    Nested (portions.flatMap tokens ++ rest) := by
  induction portions with
  | nil => exact h
  | cons portion portions ih =>
      rw [List.flatMap_cons, List.append_assoc]
      exact portion.nested_append ih

end Portion

namespace Initializer

theorem nested_initializers (initializers : List Initializer) :
    Nested (initializers.flatMap tokens) := by
  induction initializers with
  | nil => exact .nil
  | cons initializer initializers ih =>
      have hexpansion : Nested (initializer.expansion.toList ++ initializers.flatMap tokens) := by
        cases hcases : initializer.expansion with
        | none => exact ih
        | some token =>
            have hkind := initializer.isExpansion token hcases
            exact .token (by rw [hkind]; rfl) (by rw [hkind]; rfl) ih
      have hinner := Portion.nested_portions initializer.name
        (initializer.isGroup.nested_append hexpansion)
      rw [List.flatMap_cons, tokens, List.cons_append, List.append_assoc, List.append_assoc]
      rcases initializer.isSeparator with hkind | hkind <;>
        exact .token (by rw [hkind]; rfl) (by rw [hkind]; rfl) hinner

variable (initializer : Initializer) {passed : Passed}

-- A declaration that ends with an initializer had no `=`.
theorem equals_pass :
    (initializer.pass passed).equals =
      (passed.equals || initializer.name.any Portion.isEquals) := by
  rw [pass, ← Portion.equals_foldl]
  split
  · rfl
  · split
    · next hended =>
      have hplain : (initializer.name.foldl Portion.pass passed).equals = false := by
        simpa using (Bool.and_eq_true_iff.mp hended).2
      exact hplain.symm
    · rfl

theorem equals_foldl (initializers : List Initializer) :
    (initializers.foldl pass passed).equals =
      (passed.equals ||
        initializers.any fun initializer => initializer.name.any Portion.isEquals) := by
  induction initializers generalizing passed with
  | nil => simp
  | cons initializer initializers ih =>
      rw [List.foldl_cons, ih, equals_pass, List.any_cons, Bool.or_assoc]

-- Parentheses count as parameters again, braces end what had them.
theorem parameters_pass (h : (initializer.pass passed).equals = false) :
    (initializer.pass passed).parameters = !initializer.isBraced := by
  have hequals : (initializer.name.foldl Portion.pass passed).equals = false := by
    rw [Portion.equals_foldl, ← equals_pass]
    exact h
  rcases initializer.isInitializer with hkind | hkind
  · simp [pass, isBraced, hkind, hequals]
  · cases hseen : (initializer.name.foldl Portion.pass passed).parameters <;>
      simp [pass, isBraced, hkind, hequals, hseen, Passed.nothing]

theorem parameters_foldl (initializers : List Initializer) (hseen : passed.parameters = true)
    (h : (initializers.foldl pass passed).equals = false) :
    (initializers.foldl pass passed).parameters = !(initializers.getLast?.any isBraced) := by
  rcases List.eq_nil_or_concat initializers with rfl | ⟨front, last, rfl⟩
  · simpa using hseen
  · rw [List.concat_eq_append, List.foldl_append, List.foldl_cons, List.foldl_nil] at h ⊢
    rw [parameters_pass last h]
    simp

end Initializer

namespace FunctionDefinition

variable (function : FunctionDefinition)

theorem nested_middle : Nested function.middle :=
  Portion.nested_portions function.head (function.isParameters.nested_append
    (Portion.nested_portions function.qualifiers
      (Initializer.nested_initializers function.initializers)))

-- What stands between the first token and the body begins neither braces nor a namespace.
theorem kindAt_portions {portions : List Portion} {group : List Token}
    (h : WholeGroup .lParen group) (rest : List Token) :
    kindAt (portions.flatMap Portion.tokens ++ (group ++ rest)) ∉ [.namespaceKw, .lBrace] := by
  cases portions with
  | nil =>
      rw [List.flatMap_nil, List.nil_append, h.kindAt_append]
      decide
  | cons portion portions =>
      rw [List.flatMap_cons, List.append_assoc]
      exact portion.kindAt_append _

-- A string at the beginning of a definition does not make it a linkage block.
theorem not_linkage {portions : List Portion} {group : List Token} (h : WholeGroup .lParen group)
    (rest : List Token) :
    ¬(kindAt (portions.flatMap Portion.tokens ++ (group ++ rest)) = .string ∧
      kindAt (portions.flatMap Portion.tokens ++ (group ++ rest)).tail = .lBrace) := by
  rintro ⟨hstring, hbrace⟩
  cases portions with
  | nil =>
      rw [List.flatMap_nil, List.nil_append, h.kindAt_append] at hstring
      cases hstring
  | cons portion portions =>
      cases portion with
      | single token hopen hclose hsemicolon hnamespace =>
          have hkinds := @kindAt_portions portions group h rest
          exact hkinds (List.mem_cons_of_mem _ (List.mem_singleton.mpr hbrace))
      | group kind tokens hgroup hopening =>
          have hopen := hgroup.isOpen
          rw [List.flatMap_cons, List.append_assoc, Portion.tokens, hgroup.kindAt_append] at hstring
          rw [hstring] at hopen
          cases hopen

-- Whether a definition begins like one of a type is decided in front of its body.
theorem startsTypeDeclaration_append (rest : List Token) :
    startsTypeDeclaration (function.tokens ++ rest) = startsTypeDeclaration function.tokens := by
  have hbrace := function.isBody.kindAt_append []
  rw [List.append_nil] at hbrace
  cases hbody : function.body with
  | nil =>
      rw [hbody] at hbrace
      cases hbrace
  | cons opening inner =>
      rw [hbody, kindAt_cons] at hbrace
      have hclosing : Closing function.middle := ⟨[], function.nested_middle⟩
      have hdecided := @startsTypeDeclaration_decided opening (.inr hbrace) function.first _
        hclosing (inner ++ rest) inner
      rwa [tokens, hbody, List.cons_append, List.append_assoc, List.cons_append]

-- A definition that does not begin like one of a type is read as one of what is skipped.
theorem startsSkipped (htype : function.startsType = false) (rest : List Token) :
    StartsSkipped (function.tokens ++ rest) := by
  obtain ⟨hopen, hclose, hfirst⟩ := function.isFirst
  simp only [List.mem_cons, List.not_mem_nil, or_false, not_or] at hfirst
  have hbehind : function.middle ++ (function.body ++ rest) =
      function.head.flatMap Portion.tokens ++ (function.parameters ++
        (function.qualifiers.flatMap Portion.tokens ++
          (function.initializers.flatMap Initializer.tokens ++ (function.body ++ rest)))) := by
    simp [middle]
  have hnamespace := @kindAt_portions function.head _ function.isParameters
    (function.qualifiers.flatMap Portion.tokens ++
      (function.initializers.flatMap Initializer.tokens ++ (function.body ++ rest)))
  have hlinkage := @not_linkage function.head _ function.isParameters
    (function.qualifiers.flatMap Portion.tokens ++
      (function.initializers.flatMap Initializer.tokens ++ (function.body ++ rest)))
  rw [← hbehind] at hnamespace hlinkage
  have hstarts : isTypeKey function.first.kind = true →
      startsTypeDeclaration (function.tokens ++ rest) = false := by
    intro hkey
    rw [startsTypeDeclaration_append]
    simpa [startsType, hkey] using htype
  have htokens : function.tokens ++ rest =
      function.first :: (function.middle ++ (function.body ++ rest)) := by simp [tokens]
  rw [htokens] at hstarts ⊢
  constructor
  · rw [scopeForm, kindAt_cons]
    cases hkind : function.first.kind <;>
      simp_all [isTypeKey, isClassKey, TokenKind.isOpen, TokenKind.isClose]
  · rw [kindAt_cons]
    intro hmem
    rcases List.mem_cons.mp hmem with hkind | hkind
    · exact hfirst.2.2.2.1 hkind
    · rw [List.mem_singleton.mp hkind] at hopen
      cases hopen

-- The braces behind it are taken for a body exactly without a `=` outside of groups and without
-- braces around the last member initializer.
theorem passed_eq : (function.passed.parameters && !function.passed.equals) =
    (!function.hasEquals && !function.endsBraced) := by
  have hequals : function.passed.equals = function.hasEquals := by
    rw [passed, Initializer.equals_foldl, Portion.equals_foldl]
    dsimp only
    rw [Portion.equals_foldl, hasEquals]
    rfl
  rw [hequals]
  cases hplain : function.hasEquals with
  | true => simp
  | false =>
      rw [hplain] at hequals
      have hhead : (function.head.foldl Portion.pass .nothing).equals = false := by
        rw [Portion.equals_foldl]
        simp only [hasEquals, Bool.or_eq_false_iff] at hplain
        exact hplain.1.1
      have hseen := Initializer.parameters_foldl function.initializers
        (Portion.parameters_foldl function.qualifiers
          (by simp [hhead] : (Passed.mk ((function.head.foldl Portion.pass .nothing).parameters ||
            !(function.head.foldl Portion.pass .nothing).equals)
              (function.head.foldl Portion.pass .nothing).equals).parameters = true)) hequals
      have hparameters : function.passed.parameters = !function.endsBraced := hseen
      rw [hparameters]
      simp

-- In front of the member initializers, a definition is skipped up to what has been seen there.
theorem skip_front (rest : List Token) :
    skipDeclaration ending .nothing ((function.first :: (function.head.flatMap Portion.tokens ++
        (function.parameters ++ function.qualifiers.flatMap Portion.tokens))) ++ rest) =
      skipDeclaration ending (function.qualifiers.foldl Portion.pass
        { function.head.foldl Portion.pass .nothing with
          parameters := (function.head.foldl Portion.pass .nothing).parameters ||
            !(function.head.foldl Portion.pass .nothing).equals }) rest := by
  obtain ⟨hopen, hclose, hfirst⟩ := function.isFirst
  simp only [List.mem_cons, List.not_mem_nil, or_false, not_or] at hfirst
  have hbrace : function.first.kind ≠ .rBrace := fun hkind => by
    simp [hkind, TokenKind.isClose] at hclose
  rw [List.cons_append, skipDeclaration_plain hopen hbrace hfirst.1 hfirst.2.2.2.2,
    List.append_assoc, skip_portions, List.append_assoc,
    skipDeclaration_parens function.isParameters, skip_portions]

-- A scope goes on behind a function definition where what is skipped at its body ends.
theorem scope_body (mode : ErrorMode) (nested : Bool) (htype : function.startsType = false)
    {rest after : List Token}
    (h : skipDeclaration ending function.passed (function.body ++ rest) = .done () after) :
    Recorded.Extends [] [] (scope mode ending nested after)
      (scope mode ending nested (function.tokens ++ rest)) := by
  have hsplit : function.tokens ++ rest =
      (function.first :: (function.head.flatMap Portion.tokens ++
        (function.parameters ++ function.qualifiers.flatMap Portion.tokens))) ++
          (function.initializers.flatMap Initializer.tokens ++ (function.body ++ rest)) := by
    simp [tokens, middle]
  have hstarts := function.startsSkipped htype rest
  rw [hsplit] at hstarts ⊢
  exact scope_initializers nested function.skip_front h (function.isBody.kindAt_append rest)
    (.inr hstarts)

-- The declarations behind a function definition are read as they are without it, if its braces
-- are taken for a body.
theorem scope_behind (mode : ErrorMode) (nested : Bool) (htype : function.startsType = false)
    (hpassed : (function.passed.parameters && !function.passed.equals) = true)
    (rest : List Token) :
    Recorded.Extends [] [] (scope mode ending nested rest)
      (scope mode ending nested (function.tokens ++ rest)) := by
  have hbody : skipDeclaration ending function.passed (function.body ++ rest) =
      .done () (skipOne .semicolon rest) := by
    rw [skipDeclaration_braces function.isBody, if_pos hpassed]
  exact (function.scope_body mode nested htype hbody).trans (scope_skipOne mode nested rest).symm

-- Otherwise the next declaration is skipped with it.
theorem scope_past (mode : ErrorMode) (nested : Bool) (htype : function.startsType = false)
    (hpassed : (function.passed.parameters && !function.passed.equals) = false)
    {rest after : List Token} (h : skipDeclaration ending function.passed rest = .done () after) :
    Recorded.Extends [] [] (scope mode ending nested after)
      (scope mode ending nested (function.tokens ++ rest)) := by
  refine function.scope_body mode nested htype ?_
  rw [skipDeclaration_braces function.isBody, hpassed]
  exact h

end FunctionDefinition

end Reflection.Header
