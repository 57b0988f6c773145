import Reflection.Proofs.Header.Members.Skipping
import Reflection.Proofs.Header.PlainFields
import Reflection.Proofs.Header.Unplaced

namespace Reflection.Header

variable {ending : Token} (context : MemberContext) (seen : Seen)

theorem AttributeTokens.attributeBlock_tokens (attributes : AttributeTokens) (rest : List Token) :
    ∃ tokens, attributes.tokens ++ rest = attributes.opening :: tokens ∧
      attributeBlock ending attributes.opening [] tokens = .done attributes.block rest := by
  refine ⟨attributes.inner ++ attributes.close.first :: attributes.close.second :: rest, ?_,
    attributeBlock_nested attributes.close.first_kind attributes.close.second_kind
      attributes.no_pair attributes.opening [] rest⟩
  simp [AttributeTokens.tokens]

section Specifiers

-- What has been seen behind a part of the type.
def Seen.pass (seen : Seen) : TypePart → Seen
  | .name token _ => { seen with name := some token, names := seen.names + 1 }
  | _ => seen

theorem memberDeclaration_mark {token : Token} (h : token.kind ∈ [.colonColon, .star, .amp])
    (rest : List Token) :
    memberDeclaration context ending seen (token :: rest) =
      memberDeclaration context ending seen rest := by
  rw [memberDeclaration_cons]
  generalize token.kind = kind at h
  fin_cases h <;> rfl

theorem memberDeclaration_part (part : TypePart) (rest : List Token) :
    memberDeclaration context ending seen (part.tokens ++ rest) =
      memberDeclaration context ending (seen.pass part) rest := by
  cases part with
  | name token hkind =>
      rw [TypePart.tokens, List.singleton_append, memberDeclaration_cons, hkind]
      rfl
  | mark token hkind => exact memberDeclaration_mark context seen hkind rest
  | arguments opening inner closing hopening hinner hclosing =>
      rw [TypePart.tokens, List.cons_append, List.append_assoc, List.singleton_append,
        memberDeclaration_cons, hopening]
      dsimp only
      rw [skipAngles_closed hinner hclosing, MembersRead.after_done]
      rfl

theorem memberDeclaration_parts (parts : List TypePart) (rest : List Token) :
    memberDeclaration context ending seen (parts.flatMap TypePart.tokens ++ rest) =
      memberDeclaration context ending (parts.foldl Seen.pass seen) rest := by
  induction parts generalizing seen with
  | nil => rfl
  | cons part parts ih =>
      rw [List.flatMap_cons, List.append_assoc, memberDeclaration_part, ih, List.foldl_cons]

-- A type only changes the most recent name and the number of names.
theorem foldl_pass (parts : List TypePart) :
    ∃ name, parts.foldl Seen.pass seen =
      ⟨seen.isStatic, seen.isDestructor, name, seen.names + parts.countP TypePart.isName,
        seen.attributes⟩ := by
  induction parts generalizing seen with
  | nil => exact ⟨seen.name, rfl⟩
  | cons part parts ih =>
      obtain ⟨name, hrest⟩ := ih (seen.pass part)
      refine ⟨name, ?_⟩
      rw [List.foldl_cons, hrest, List.countP_cons]
      cases part with
      | name token hkind =>
          simp only [Seen.pass, TypePart.isName, if_true]
          rw [Nat.add_assoc, Nat.add_comm 1]
      | _ => rfl

-- What has been seen behind the keyword that a declaration may begin with.
def Seen.behind (keyword : Option StaticKeyword) : Seen := ⟨keyword.isSome, false, none, 0, []⟩

theorem memberDeclaration_keyword (keyword : Option StaticKeyword) (rest : List Token) :
    memberDeclaration context ending .nothing (keywordTokens keyword ++ rest) =
      memberDeclaration context ending (.behind keyword) rest := by
  cases keyword with
  | none => rfl
  | some keyword =>
      have htokens : keywordTokens (some keyword) ++ rest = keyword.token :: rest := rfl
      rw [htokens, memberDeclaration_cons, keyword.kind]
      rfl

end Specifiers

section Data

theorem memberDeclaration_marks {marks : List Token} (h : ∀ mark ∈ marks, mark.kind ∈ [.star, .amp])
    (rest : List Token) :
    memberDeclaration context ending seen (marks ++ rest) =
      memberDeclaration context ending seen rest := by
  induction marks with
  | nil => rfl
  | cons mark marks ih =>
      have hmark := List.mem_cons_of_mem TokenKind.colonColon (h mark List.mem_cons_self)
      rw [List.cons_append, memberDeclaration_mark context seen hmark]
      exact ih fun other hmem => h other (List.mem_cons_of_mem mark hmem)

theorem memberDeclaration_suffix_tokens (suffix : Suffix) (rest : List Token) :
    memberDeclaration context ending seen (suffix.tokens ++ rest) =
      memberDeclaration context ending
        { seen with attributes := seen.attributes ++ suffix.blocks } rest := by
  cases suffix with
  | attributed attributes =>
      obtain ⟨tokens, htokens, hblock⟩ := @attributes.attributeBlock_tokens ending rest
      rw [Suffix.tokens, htokens, memberDeclaration_cons, attributes.opening_kind]
      dsimp only
      rw [hblock]
      rfl
  | bound group hgroup =>
      obtain ⟨opening, inner, htokens, hkind, _, hskip⟩ := @WholeGroup.skip ending _ _ hgroup rest
      rw [Suffix.tokens, htokens, memberDeclaration_cons, hkind, hskip, Suffix.blocks,
        List.append_nil]
      rfl

theorem memberDeclaration_suffixes (suffixes : List Suffix) (rest : List Token) :
    memberDeclaration context ending seen (suffixes.flatMap Suffix.tokens ++ rest) =
      memberDeclaration context ending
        { seen with attributes := seen.attributes ++ suffixes.flatMap Suffix.blocks } rest := by
  induction suffixes generalizing seen with
  | nil => rw [List.flatMap_nil, List.flatMap_nil, List.append_nil]; rfl
  | cons suffix suffixes ih =>
      rw [List.flatMap_cons, List.append_assoc, memberDeclaration_suffix_tokens, ih,
        List.flatMap_cons, List.append_assoc]

theorem memberDeclaration_initial (initial : Initial) {rest : List Token}
    (hrest : kindAt rest ∈ [.comma, .semicolon]) :
    memberDeclaration context ending seen (initial.tokens ++ rest) =
      memberDeclaration context ending seen rest := by
  cases initial with
  | absent => rfl
  | marked mark value hmark hvalue =>
      rw [Initial.tokens, List.cons_append, memberDeclaration_cons]
      generalize mark.kind = kind at hmark
      fin_cases hmark <;>
        (dsimp only; rw [skipInitializer_value hvalue hrest, MembersRead.after_done])
  | braced group hgroup =>
      obtain ⟨opening, inner, htokens, hkind, _, hskip⟩ := @WholeGroup.skip ending _ _ hgroup rest
      rw [Initial.tokens, htokens, memberDeclaration_cons, hkind, hskip]
      rfl

-- Behind a declarator, its name is the most recent one and its attributes have been seen.
theorem memberDeclaration_declarator (declarator : Declarator) {rest : List Token}
    (hrest : kindAt rest ∈ [.comma, .semicolon]) :
    memberDeclaration context ending seen (declarator.tokens ++ rest) =
      memberDeclaration context ending
        { seen with
          name := some declarator.name
          names := seen.names + 1
          attributes := seen.attributes ++ declarator.blocks } rest := by
  rw [Declarator.tokens, List.append_assoc, memberDeclaration_marks _ _ declarator.mark_kinds,
    List.cons_append, memberDeclaration_cons, declarator.name_kind]
  dsimp only
  rw [List.append_assoc, memberDeclaration_suffixes, memberDeclaration_initial _ _ _ hrest]
  rfl

-- The field that a declarator declares, without its place.
def MemberContext.declared (context : MemberContext) (isStatic : Bool) (declarator : Declarator) :
    Member :=
  .field ⟨declarator.name.word, isStatic, context.access, context.annotations ++ declarator.blocks,
    .none⟩

theorem memberDeclaration_declarators (first : Declarator) {more : List (Token × Declarator)}
    {semicolon : Token} (hcommas : ∀ entry ∈ more, entry.1.kind = .comma)
    (hsemicolon : semicolon.kind = .semicolon) (hseen : seen.attributes = []) (rest : List Token) :
    ∃ members, memberDeclaration context ending seen
        (first.tokens ++ (more.flatMap commaTokens ++ semicolon :: rest)) =
          ⟨members, none, rest⟩ ∧
      unplacedMembers members = unplacedMembers
        ((first :: more.map Prod.snd).map (context.declared seen.isStatic)) := by
  induction more generalizing first seen with
  | nil =>
      rw [List.flatMap_nil, List.nil_append, memberDeclaration_declarator, hseen, List.nil_append,
        memberDeclaration_cons, hsemicolon]
      · exact ⟨_, rfl, rfl⟩
      · rw [kindAt_cons, hsemicolon]
        decide
  | cons entry more ih =>
      have hcomma := hcommas entry List.mem_cons_self
      obtain ⟨members, hread, hmembers⟩ :=
        ih ⟨seen.isStatic, seen.isDestructor, none, seen.names + 1, []⟩ entry.2
          (fun other hmem => hcommas other (List.mem_cons_of_mem entry hmem)) rfl
      refine ⟨context.field ⟨seen.isStatic, seen.isDestructor, some first.name, seen.names + 1,
        first.blocks⟩ first.name entry.1 :: members, ?_, ?_⟩
      · rw [List.flatMap_cons, List.append_assoc, memberDeclaration_declarator, hseen,
          List.nil_append, commaTokens, List.cons_append, memberDeclaration_cons, hcomma]
        · dsimp only
          rw [hread]
          rfl
        · rw [commaTokens, List.cons_append, kindAt_cons, hcomma]
          decide
      · rw [unplacedMembers, hmembers]
        rfl

theorem memberDeclaration_data (member : DataMember) (rest : List Token) :
    ∃ members, memberDeclaration context ending .nothing (member.tokens ++ rest) =
        ⟨members, none, rest⟩ ∧
      unplacedMembers members =
        unplacedMembers (member.members context.access context.annotations []) := by
  obtain ⟨name, hseen⟩ := foldl_pass (.behind member.keyword) member.type
  obtain ⟨members, hread, hmembers⟩ := @memberDeclaration_declarators ending context
    (member.type.foldl Seen.pass (.behind member.keyword)) member.first member.more member.semicolon
    member.comma_kinds member.semicolon_kind (by rw [hseen]; rfl) rest
  refine ⟨members, ?_, ?_⟩
  · rw [← hread, DataMember.tokens, List.append_assoc, List.append_assoc, List.append_assoc,
      List.append_assoc, List.singleton_append, memberDeclaration_keyword, memberDeclaration_parts]
  · rw [hmembers, hseen, DataMember.members]
    simp only [List.append_nil]
    rfl

end Data

section Functions

variable (function : MemberFunction) {rest : List Token}

theorem Parameters.tokens_cons (parameters : Parameters) (rest : List Token) :
    ∃ inner, parameters.tokens ++ rest = parameters.opening :: inner ∧
      kindAt inner ∉ [.star, .amp] := by
  have hplain := parameters.plain
  refine ⟨parameters.inner ++ parameters.closing :: rest, by simp [Parameters.tokens], ?_⟩
  cases hinner : parameters.inner with
  | nil => rwa [hinner] at hplain
  | cons token inner => rwa [hinner] at hplain

-- A function goes on behind its name with the parenthesis of its parameters.
theorem MemberFunction.tail_cons (rest : List Token) :
    ∃ inner, function.tail ++ rest = function.parameters.opening :: inner ∧
      kindAt inner ∉ [.star, .amp] := by
  rw [MemberFunction.tail, List.append_assoc]
  exact function.parameters.tokens_cons _

theorem method_tail (name : String) (kind : MethodKind) (hrest : kindAt rest ≠ .semicolon) :
    context.method ending seen name kind (function.tail ++ rest) =
      ⟨[.method ⟨name, kind, seen.isStatic, context.access,
        context.annotations ++ seen.attributes, spanFrom ending context.start rest⟩], none,
          rest⟩ := by
  rw [MemberContext.method, skipFunctionEnd_tail function hrest]

-- A name with parameters behind it is a function, unless it stands alone and the class is called
-- otherwise.
theorem memberDeclaration_opening {name opening : Token} {inner : List Token} (kind : MethodKind)
    (hopening : opening.kind = .lParen) (hplain : kindAt inner ∉ [.star, .amp])
    (hname : seen.name = some name)
    (hkind : (if seen.isDestructor then MethodKind.destructor
      else if some name.word = context.className then .constructor else .regular) = kind)
    (hnames : kind = .regular → seen.names ≠ 1) :
    memberDeclaration context ending seen (opening :: inner) =
      context.method ending seen name.word kind (opening :: inner) := by
  rw [memberDeclaration_cons, hopening]
  dsimp only
  rw [if_neg fun hpointer => hplain (by simpa using hpointer), hname]
  dsimp only
  rw [MemberContext.named, hkind, if_neg fun h => hnames h.1 h.2]

theorem memberDeclaration_named {name : Token} (kind : MethodKind) (hname : seen.name = some name)
    (hkind : (if seen.isDestructor then MethodKind.destructor
      else if some name.word = context.className then .constructor else .regular) = kind)
    (hnames : kind = .regular → seen.names ≠ 1) (hrest : kindAt rest ≠ .semicolon) :
    memberDeclaration context ending seen (function.tail ++ rest) =
      ⟨[.method ⟨name.word, kind, seen.isStatic, context.access,
        context.annotations ++ seen.attributes, spanFrom ending context.start rest⟩], none,
          rest⟩ := by
  rw [← method_tail context seen function name.word kind hrest]
  obtain ⟨inner, htail, hplain⟩ := function.tail_cons rest
  rw [htail]
  exact memberDeclaration_opening context seen kind function.parameters.opening_kind hplain hname
    hkind hnames

theorem memberDeclaration_function (hfits : function.Fits context.className)
    (hrest : kindAt rest ≠ .semicolon) :
    ∃ span, memberDeclaration context ending .nothing (function.tokens ++ rest) =
      ⟨[.method ⟨function.name.text, function.name.kind, function.keyword.isSome, context.access,
        context.annotations, span⟩], none, rest⟩ := by
  obtain ⟨name, hseen⟩ := foldl_pass (.behind function.keyword) function.type
  refine ⟨spanFrom ending context.start rest, ?_⟩
  rw [MemberFunction.tokens, List.append_assoc, List.append_assoc, List.append_assoc,
    memberDeclaration_keyword, memberDeclaration_parts, hseen]
  rw [MemberFunction.Fits] at hfits
  cases hname : function.name with
  | regular name hkind =>
      rw [hname] at hfits
      have htyped : 0 < function.type.countP TypePart.isName :=
        List.countP_pos_iff.mpr (List.any_eq_true.mp hfits.2)
      rw [FunctionName.tokens, List.singleton_append, memberDeclaration_cons, hkind]
      dsimp only
      have hnames : (Seen.behind function.keyword).names +
          function.type.countP TypePart.isName + 1 ≠ 1 := by
        simpa [Seen.behind] using htyped.ne'
      rw [memberDeclaration_named context _ function .regular rfl (if_neg hfits.1) (fun _ => hnames)
        hrest]
      simp [FunctionName.text, FunctionName.kind, Seen.behind]
  | constructor name hkind =>
      rw [hname] at hfits
      rw [FunctionName.tokens, List.singleton_append, memberDeclaration_cons, hkind]
      dsimp only
      rw [memberDeclaration_named context _ function .constructor rfl (if_pos hfits) nofun hrest]
      simp [FunctionName.text, FunctionName.kind, Seen.behind]
  | destructor tilde name htilde hkind =>
      rw [FunctionName.tokens, List.cons_append, List.singleton_append, memberDeclaration_cons,
        htilde]
      dsimp only
      rw [memberDeclaration_cons, hkind]
      dsimp only
      rw [memberDeclaration_named context _ function .destructor rfl rfl nofun hrest]
      simp [FunctionName.text, FunctionName.kind, Seen.behind]
  | operator keyword symbol hkeyword =>
      have hparen : kindAt (function.tail ++ rest) = .lParen := by
        obtain ⟨inner, htail, _⟩ := function.tail_cons rest
        rw [htail, kindAt_cons, function.parameters.opening_kind]
      rw [FunctionName.tokens, List.cons_append, memberDeclaration_cons, hkeyword]
      dsimp only
      rw [MemberContext.operator, operatorName_symbol symbol hparen]
      dsimp only
      rw [method_tail context _ function symbol.name .operator hrest]
      simp [FunctionName.text, FunctionName.kind, Seen.behind]

end Functions

end Reflection.Header
