import Mathlib.Tactic.FinCases
import Reflection.Proofs.Header.Members.Forms

namespace Reflection.Header

variable {ending : Token}

theorem skipAngles_plain {token : Token} (hkind : token.kind ∉ [.lt, .gt, .semicolon])
    (hopen : token.kind.isOpen = false) (hclose : token.kind.isClose = false) (opening : Token)
    (depth : Nat) (rest : List Token) :
    skipAngles ending opening depth (token :: rest) = skipAngles ending opening depth rest := by
  rw [skipAngles_cons]
  cases hkind' : token.kind <;> simp_all [TokenKind.isOpen, TokenKind.isClose]

theorem skipAngles_group {kind : TokenKind} {group : List Token} (h : WholeGroup kind group)
    (opening : Token) (depth : Nat) (rest : List Token) :
    skipAngles ending opening depth (group ++ rest) = skipAngles ending opening depth rest := by
  obtain ⟨first, inner, htokens, hkind, hopen, hskip⟩ := @WholeGroup.skip ending _ _ h rest
  rw [htokens, skipAngles_cons, hkind, hskip]
  cases kind <;> first
    | rfl
    | cases hopen

-- Inside angle brackets, their contents leave the depth as it is.
theorem skipAngles_angled {inner : List Token} (h : Angled inner) (opening : Token) (depth : Nat)
    (rest : List Token) :
    skipAngles ending opening (depth + 1) (inner ++ rest) =
      skipAngles ending opening (depth + 1) rest := by
  induction h generalizing depth rest with
  | nil => rfl
  | token hkind hopen hclose _ ih =>
      rw [List.cons_append, skipAngles_plain hkind hopen hclose, ih]
  | group hgroup _ ih => rw [List.append_assoc, skipAngles_group hgroup, ih]
  | @angles first last inner after hfirst hlast _ _ ihinner ihrest =>
      rw [List.cons_append, skipAngles_cons, hfirst, List.append_assoc, List.cons_append]
      dsimp only
      rw [ihinner, skipAngles_cons, hlast]
      dsimp only
      rw [if_neg (by omega)]
      exact ihrest depth rest

theorem skipAngles_closed {inner : List Token} (h : Angled inner) {closing : Token}
    (hclosing : closing.kind = .gt) (opening : Token) (rest : List Token) :
    skipAngles ending opening 1 (inner ++ closing :: rest) = .done () rest := by
  rw [skipAngles_angled h, skipAngles_cons, hclosing]
  rfl

theorem skipInitializer_before {value : List Token} (h : Value value) {rest : List Token}
    (hrest : kindAt rest ∈ [.comma, .semicolon, .rBrace]) :
    skipInitializer ending (value ++ rest) = .done () rest := by
  induction h with
  | nil =>
      cases rest with
      | nil => simp at hrest
      | cons token rest =>
          rw [List.nil_append, skipInitializer_cons]
          rw [kindAt_cons] at hrest
          generalize token.kind = kind at hrest
          fin_cases hrest <;> rfl
  | @token token after hkind hopen hclose _ ih =>
      rw [List.cons_append, skipInitializer_cons, ← ih]
      cases hkind' : token.kind <;> simp_all [TokenKind.isOpen, TokenKind.isClose]
  | @group kind group after hgroup _ ih =>
      obtain ⟨first, inner, htokens, hkind, hopen, hskip⟩ :=
        @WholeGroup.skip ending _ _ hgroup (after ++ rest)
      rw [List.append_assoc, htokens, skipInitializer_cons, hkind, hskip, ← ih]
      cases kind <;> first
        | rfl
        | cases hopen

theorem skipInitializer_value {value : List Token} (h : Value value) {rest : List Token}
    (hrest : kindAt rest ∈ [.comma, .semicolon]) :
    skipInitializer ending (value ++ rest) = .done () rest :=
  skipInitializer_before h (List.mem_append_left [TokenKind.rBrace] hrest)

section TypeParts

-- The parts of a type mean nothing to what skips a member initializer or the end of a function.
theorem skipMemberInitializers_part (part : TypePart) (rest : List Token) :
    skipMemberInitializers ending (part.tokens ++ rest) = skipMemberInitializers ending rest := by
  cases part with
  | name token hkind =>
      rw [TypePart.tokens, List.singleton_append, skipMemberInitializers_cons, hkind]
  | mark token hkind =>
      rw [TypePart.tokens, List.singleton_append, skipMemberInitializers_cons]
      generalize token.kind = kind at hkind
      fin_cases hkind <;> rfl
  | arguments opening inner closing hopening hinner hclosing =>
      rw [TypePart.tokens, List.cons_append, List.append_assoc, List.singleton_append,
        skipMemberInitializers_cons, hopening]
      dsimp only
      rw [skipAngles_closed hinner hclosing, Read.bind_done]

theorem skipMemberInitializers_parts (parts : List TypePart) (rest : List Token) :
    skipMemberInitializers ending (parts.flatMap TypePart.tokens ++ rest) =
      skipMemberInitializers ending rest := by
  induction parts with
  | nil => rfl
  | cons part parts ih =>
      rw [List.flatMap_cons, List.append_assoc, skipMemberInitializers_part, ih]

theorem skipFunctionEnd_part (part : TypePart) (rest : List Token) :
    skipFunctionEnd ending (part.tokens ++ rest) = skipFunctionEnd ending rest := by
  cases part with
  | name token hkind =>
      rw [TypePart.tokens, List.singleton_append, skipFunctionEnd_cons, hkind]
  | mark token hkind =>
      rw [TypePart.tokens, List.singleton_append, skipFunctionEnd_cons]
      generalize token.kind = kind at hkind
      fin_cases hkind <;> rfl
  | arguments opening inner closing hopening hinner hclosing =>
      rw [TypePart.tokens, List.cons_append, List.append_assoc, List.singleton_append,
        skipFunctionEnd_cons, hopening]
      dsimp only
      rw [skipAngles_closed hinner hclosing, Read.bind_done]

end TypeParts

theorem skipFunctionEnd_parens {group : List Token} (h : WholeGroup .lParen group)
    (rest : List Token) :
    skipFunctionEnd ending (group ++ rest) = skipFunctionEnd ending rest := by
  obtain ⟨first, inner, htokens, hkind, _, hskip⟩ := @WholeGroup.skip ending _ _ h rest
  rw [htokens, skipFunctionEnd_cons, hkind, hskip]
  rfl

theorem skipFunctionEnd_qualifiers (qualifiers : List Qualifier) (rest : List Token) :
    skipFunctionEnd ending (qualifiers.flatMap Qualifier.tokens ++ rest) =
      skipFunctionEnd ending rest := by
  induction qualifiers with
  | nil => rfl
  | cons qualifier qualifiers ih =>
      rw [List.flatMap_cons, List.append_assoc, ← ih]
      cases qualifier with
      | type part => exact skipFunctionEnd_part part _
      | arrow token hkind =>
          rw [Qualifier.tokens, List.singleton_append, skipFunctionEnd_cons, hkind]
      | group tokens hgroup => exact skipFunctionEnd_parens hgroup _

-- A body ends a function, whatever follows it.
theorem skipFunctionEnd_body {group : List Token} (h : WholeGroup .lBrace group) {rest : List Token}
    (hrest : kindAt rest ≠ .semicolon) :
    skipFunctionEnd ending (group ++ rest) = .done () rest := by
  obtain ⟨first, inner, htokens, hkind, _, hskip⟩ := @WholeGroup.skip ending _ _ h rest
  rw [htokens, skipFunctionEnd_cons, hkind, hskip]
  dsimp only
  rw [Read.bind_done, skipOne, if_neg hrest]

-- The member initializer that comes next is passed over, and the others behind it.
theorem skipMemberInitializers_initializer (initializer : MemberInitializer) (rest : List Token)
    (hrest : kindAt rest ≠ .ellipsis) :
    skipMemberInitializers ending (initializer.tokens ++ rest) =
      if kindAt rest = .comma then skipMemberInitializers ending rest.tail else .done () rest := by
  obtain ⟨name, kind, group, expansion, hgroup, hvalue, hexpansion⟩ := initializer
  obtain ⟨first, inner, htokens, hkind, _, hskip⟩ :=
    @WholeGroup.skip ending _ _ hgroup (expansion.toList ++ rest)
  have hskipped : skipOne .ellipsis (expansion.toList ++ rest) = rest := by
    cases expansion with
    | none => rw [Option.toList_none, List.nil_append, skipOne, if_neg hrest]
    | some token =>
        rw [Option.toList_some, List.singleton_append, skipOne, kindAt_cons,
          if_pos (hexpansion token rfl), List.tail_cons]
  rw [MemberInitializer.tokens]
  dsimp only
  rw [List.append_assoc, List.append_assoc, skipMemberInitializers_parts, htokens,
    skipMemberInitializers_cons, hkind, hskip]
  fin_cases hvalue <;> simp only [Read.bind_done, hskipped]

theorem skipMemberInitializers_list (first : MemberInitializer)
    (more : List (Token × MemberInitializer)) (hcommas : ∀ entry ∈ more, entry.1.kind = .comma)
    {rest : List Token} (hrest : kindAt rest = .lBrace) :
    skipMemberInitializers ending
        (first.tokens ++ ((more.flatMap fun entry => entry.1 :: entry.2.tokens) ++ rest)) =
      .done () rest := by
  induction more generalizing first with
  | nil =>
      rw [List.flatMap_nil, List.nil_append, skipMemberInitializers_initializer, hrest]
      · rfl
      · rw [hrest]
        decide
  | cons entry more ih =>
      have hcomma := hcommas entry List.mem_cons_self
      rw [List.flatMap_cons, List.cons_append, List.cons_append,
        skipMemberInitializers_initializer, kindAt_cons, hcomma, if_pos rfl, List.tail_cons,
        List.append_assoc]
      · exact ih entry.2 fun other hmem => hcommas other (List.mem_cons_of_mem entry hmem)
      · rw [kindAt_cons, hcomma]
        decide

theorem skipFunctionEnd_end (functionEnd : FunctionEnd) {rest : List Token}
    (hrest : kindAt rest ≠ .semicolon) :
    skipFunctionEnd ending (functionEnd.tokens ++ rest) = .done () rest := by
  cases functionEnd with
  | declared semicolon hsemicolon =>
      rw [FunctionEnd.tokens, List.singleton_append, skipFunctionEnd_cons, hsemicolon]
  | assigned equals value semicolon hequals hvalue hsemicolon =>
      have hvalue' : skipFunctionEnd ending (value :: semicolon :: rest) =
          skipFunctionEnd ending (semicolon :: rest) := by
        rw [skipFunctionEnd_cons]
        generalize value.kind = kind at hvalue
        fin_cases hvalue <;> rfl
      rw [FunctionEnd.tokens, List.cons_append, List.cons_append, List.singleton_append,
        skipFunctionEnd_cons, hequals]
      dsimp only
      rw [hvalue', skipFunctionEnd_cons, hsemicolon]
  | body group hgroup => exact skipFunctionEnd_body hgroup hrest
  | constructed colon first more group hcolon hcommas hgroup =>
      have hbrace : kindAt (group ++ rest) = .lBrace := hgroup.kindAt_append rest
      rw [FunctionEnd.tokens, List.cons_append, skipFunctionEnd_cons, hcolon]
      dsimp only
      rw [List.append_assoc, List.append_assoc,
        skipMemberInitializers_list first more hcommas hbrace, Read.bind_done]
      exact skipFunctionEnd_body hgroup hrest

theorem Parameters.wholeGroup (parameters : Parameters) : WholeGroup .lParen parameters.tokens := by
  obtain ⟨opening, inner, closing, hopening, hclosing, hnested, hplain⟩ := parameters
  rw [← hopening]
  refine .delimiters ⟨?_, ?_, ?_⟩ hnested
  · rw [hopening]
    rfl
  · rw [hopening]
    decide
  · rw [hopening, hclosing]
    rfl

-- The parameters of a function and all that follows them are passed over.
theorem skipFunctionEnd_tail (function : MemberFunction) {rest : List Token}
    (hrest : kindAt rest ≠ .semicolon) :
    skipFunctionEnd ending (function.tail ++ rest) = .done () rest := by
  rw [MemberFunction.tail, List.append_assoc, List.append_assoc,
    skipFunctionEnd_parens function.parameters.wholeGroup, skipFunctionEnd_qualifiers,
    skipFunctionEnd_end function.ending hrest]

theorem operatorSymbol_spelled {symbol rest : List Token}
    (hkinds : ∀ token ∈ symbol, token.kind ∉ [.lParen, .semicolon, .rBrace])
    (hrest : kindAt rest = .lParen) :
    operatorSymbol ending (symbol ++ rest) =
      .done (symbol.flatMap OperatorSymbol.spelling) rest := by
  induction symbol with
  | nil =>
      cases rest with
      | nil => cases hrest
      | cons token rest =>
          rw [kindAt_cons] at hrest
          simp only [List.nil_append, operatorSymbol, hrest]
          rfl
  | cons token symbol ih =>
      have hread := ih fun other hmem => hkinds other (List.mem_cons_of_mem token hmem)
      have hkind := hkinds token List.mem_cons_self
      rw [List.cons_append, List.flatMap_cons, operatorSymbol, hread, OperatorSymbol.spelling]
      cases htoken : token.kind <;> simp_all [Read.map]

theorem operatorName_symbol (symbol : OperatorSymbol) {rest : List Token}
    (hrest : kindAt rest = .lParen) :
    operatorName ending (symbol.tokens ++ rest) = .done symbol.name rest := by
  cases symbol with
  | call opening closing hopening hclosing =>
      rw [OperatorSymbol.tokens, List.cons_append, List.singleton_append, operatorName, if_pos]
      · rfl
      · exact ⟨hopening, hclosing⟩
  | spelled first more hkinds =>
      have hfirst := hkinds first List.mem_cons_self
      rw [OperatorSymbol.tokens, operatorName, if_neg, operatorSymbol_spelled hkinds hrest]
      · rfl
      · rw [List.cons_append, kindAt_cons]
        exact fun hcall => hfirst (by simp [hcall.1])

end Reflection.Header
