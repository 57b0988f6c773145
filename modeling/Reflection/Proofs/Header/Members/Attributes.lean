import Reflection.Proofs.Header.Members.Headers
import Reflection.Proofs.Header.Members.Parts

namespace Reflection.Header

variable {ending : Token} {context : MemberContext} {seen : Seen}

section Counts

-- The number of attributes of a field or function, comments apart.
def Member.attributeCount : Member → Nat
  | .field decl => decl.annotations.countP (·.kind = .attribute)
  | .method decl => decl.annotations.countP (·.kind = .attribute)
  | .type _ => 0

theorem Member.attributeCount_unplaced (member : Member) :
    attributeCount member.unplaced = attributeCount member := by
  cases member with
  | field | method => exact List.countP_map
  | type => rfl

theorem attributeCounts_eq {found members : List Member}
    (h : unplacedMembers found = unplacedMembers members) :
    found.map Member.attributeCount = members.map Member.attributeCount := by
  have hcounts (list : List Member) : list.map Member.attributeCount =
      (unplacedMembers list).map Member.attributeCount := by
    rw [unplacedMembers_eq_map, List.map_map]
    exact List.map_congr_left fun member _ => (Member.attributeCount_unplaced member).symm
  rw [hcounts found, hcounts members, h]

theorem attributeCounts_commented (tokens : List Token) (members : List Member) :
    (commented (trailingDoc tokens).1 members).map Member.attributeCount =
      members.map Member.attributeCount := by
  have hkind : ∀ block ∈ (trailingDoc tokens).1, block.kind = .docComment := by
    unfold trailingDoc
    split
    · split <;> simp
    · simp
  unfold commented
  split
  · rfl
  · next block hdoc =>
    rw [List.map_map]
    refine List.map_congr_left fun member _ => ?_
    cases member <;> simp [Member.annotate, Member.attributeCount, hkind block hdoc]

theorem MemberPart.kind_blocks {parts : List MemberPart} :
    ∀ block ∈ parts.flatMap MemberPart.blocks, block.kind = .attribute := by
  intro block hmem
  obtain ⟨part, _, hblock⟩ := List.mem_flatMap.mp hmem
  cases part with
  | specifier other =>
      cases other with
      | attributed attributes => rw [List.mem_singleton.mp hblock]; rfl
      | aligned => cases hblock
  | _ => cases hblock

-- Fewer blocks than a list of attributes are fewer attributes.
theorem countP_attributes_lt {kept all : List AnnotationBlock}
    (hall : ∀ block ∈ all, block.kind = .attribute) (hlength : kept.length < all.length)
    (before : List AnnotationBlock) :
    (before ++ kept).countP (·.kind = .attribute) <
      (before ++ all).countP (·.kind = .attribute) := by
  have hcount : all.countP (·.kind = .attribute) = all.length :=
    List.countP_eq_length.mpr fun block hmem => by simp [hall block hmem]
  have hkept := List.countP_le_length (p := (·.kind = .attribute)) (l := kept)
  rw [List.countP_append, List.countP_append, hcount]
  omega

end Counts

section Fields

-- The parts of a declarator up to its width or initial value. The last name in them is its own.
structure DeclaratorParts where
  parts : List MemberPart
  name : Token
  initial : Initial
  named : MemberPart.lastName parts = some name

namespace DeclaratorParts

variable (declarator : DeclaratorParts)

def tokens : List Token :=
  declarator.parts.flatMap MemberPart.tokens ++ declarator.initial.tokens

def isStatic : Bool := declarator.parts.any MemberPart.isStatic

end DeclaratorParts

-- One or more data members. The words of the first declarator are those in front of all of them.
structure AttributedFields where
  first : DeclaratorParts
  more : List (Token × DeclaratorParts)
  semicolon : Token
  comma_kinds : ∀ entry ∈ more, entry.1.kind = .comma
  semicolon_kind : semicolon.kind = .semicolon

-- The fields of some declarators with the attributes that are read off their parts.
def declaredFields (blocks : List MemberPart → List AnnotationBlock) (access : Access)
    (annotations : List AnnotationBlock) (isStatic : Bool) : List DeclaratorParts → List Member
  | [] => []
  | declarator :: declarators =>
    .field ⟨declarator.name.word, isStatic || declarator.isStatic, access,
      annotations ++ blocks declarator.parts, .none⟩ ::
        declaredFields blocks access annotations (isStatic || declarator.isStatic) declarators

namespace AttributedFields

variable (fields : AttributedFields)

def declarators : List DeclaratorParts := fields.first :: fields.more.map Prod.snd

def tokens : List Token :=
  fields.first.tokens ++ ((fields.more.flatMap fun entry => entry.1 :: entry.2.tokens) ++
    [fields.semicolon])

-- Every field has the attributes in front of the declaration and those of its declarator.
def members (access : Access) (annotations : List AnnotationBlock) : List Member :=
  declaredFields (·.flatMap MemberPart.blocks) access annotations false fields.declarators

def losesAttribute : Bool :=
  fields.declarators.any fun declarator => MemberPart.losesAttribute false declarator.parts

end AttributedFields

theorem memberDeclaration_declaratorParts (declarator : DeclaratorParts) {rest : List Token}
    (hrest : kindAt rest ∈ [.comma, .semicolon]) :
    memberDeclaration context ending seen (declarator.tokens ++ rest) =
      memberDeclaration context ending
        ⟨seen.isStatic || declarator.isStatic, seen.isDestructor, some declarator.name,
          seen.names + declarator.parts.countP MemberPart.isName,
          seen.attributes ++ MemberPart.keptBlocks false declarator.parts⟩ rest := by
  have hinitial : kindAt (declarator.initial.tokens ++ rest) ∉ [.attrOpen, .alignasKw] := by
    cases declarator.initial with
    | absent =>
        rw [Initial.tokens, List.nil_append]
        generalize kindAt rest = kind at hrest
        fin_cases hrest <;> decide
    | marked mark value hmark hvalue =>
        rw [Initial.tokens, List.cons_append, kindAt_cons]
        generalize mark.kind = kind at hmark
        fin_cases hmark <;> decide
    | braced group hgroup =>
        rw [Initial.tokens, hgroup.kindAt_append]
        decide
  rw [DeclaratorParts.tokens, List.append_assoc,
    (memberDeclaration_memberParts context seen declarator.parts hinitial).1,
    memberDeclaration_initial _ _ _ hrest, Seen.behindParts, declarator.named]
  rfl

theorem memberDeclaration_declared (first : DeclaratorParts)
    {more : List (Token × DeclaratorParts)} {semicolon : Token}
    (hcommas : ∀ entry ∈ more, entry.1.kind = .comma) (hsemicolon : semicolon.kind = .semicolon)
    (hseen : seen.attributes = []) (rest : List Token) :
    ∃ members, memberDeclaration context ending seen
        (first.tokens ++ ((more.flatMap fun entry => entry.1 :: entry.2.tokens) ++
          semicolon :: rest)) = ⟨members, none, rest⟩ ∧
      unplacedMembers members = unplacedMembers (declaredFields (MemberPart.keptBlocks false)
        context.access context.annotations seen.isStatic (first :: more.map Prod.snd)) := by
  induction more generalizing first seen with
  | nil =>
      rw [List.flatMap_nil, List.nil_append, memberDeclaration_declaratorParts, hseen,
        List.nil_append, memberDeclaration_cons, hsemicolon]
      · exact ⟨_, rfl, rfl⟩
      · rw [kindAt_cons, hsemicolon]
        decide
  | cons entry more ih =>
      have hcomma := hcommas entry List.mem_cons_self
      obtain ⟨members, hread, hmembers⟩ := @ih
        ⟨seen.isStatic || first.isStatic, seen.isDestructor, none,
          seen.names + first.parts.countP MemberPart.isName, []⟩ entry.2
          (fun other hmem => hcommas other (List.mem_cons_of_mem entry hmem)) rfl
      refine ⟨context.field ⟨seen.isStatic || first.isStatic, seen.isDestructor, some first.name,
        seen.names + first.parts.countP MemberPart.isName, MemberPart.keptBlocks false first.parts⟩
          first.name entry.1 :: members, ?_, ?_⟩
      · rw [List.flatMap_cons, List.append_assoc, memberDeclaration_declaratorParts, hseen,
          List.nil_append, List.cons_append, memberDeclaration_cons, hcomma]
        · dsimp only
          rw [hread]
          rfl
        · rw [List.cons_append, kindAt_cons, hcomma]
          decide
      · rw [unplacedMembers, hmembers]
        rfl

theorem memberDeclaration_attributedFields (fields : AttributedFields) (rest : List Token) :
    ∃ members, memberDeclaration context ending .nothing (fields.tokens ++ rest) =
        ⟨members, none, rest⟩ ∧
      unplacedMembers members = unplacedMembers (declaredFields (MemberPart.keptBlocks false)
        context.access context.annotations false fields.declarators) := by
  rw [AttributedFields.tokens, List.append_assoc, List.append_assoc, List.singleton_append]
  exact memberDeclaration_declared fields.first fields.comma_kinds fields.semicolon_kind rfl rest

theorem declaredFields_kept {access : Access} {annotations : List AnnotationBlock}
    {isStatic : Bool} {declarators : List DeclaratorParts}
    (h : (declarators.any fun declarator => MemberPart.losesAttribute false declarator.parts) =
      false) :
    declaredFields (MemberPart.keptBlocks false) access annotations isStatic declarators =
      declaredFields (·.flatMap MemberPart.blocks) access annotations isStatic declarators := by
  induction declarators generalizing isStatic with
  | nil => rfl
  | cons declarator declarators ih =>
      obtain ⟨hfirst, hothers⟩ := Bool.or_eq_false_iff.mp h
      rw [declaredFields, declaredFields, MemberPart.keptBlocks_of_not_loses hfirst, ih hothers]

theorem attributeCounts_lost {access : Access} {annotations : List AnnotationBlock}
    {isStatic : Bool} {declarators : List DeclaratorParts}
    (h : (declaredFields (MemberPart.keptBlocks false) access annotations isStatic
        declarators).map Member.attributeCount =
      (declaredFields (·.flatMap MemberPart.blocks) access annotations isStatic
        declarators).map Member.attributeCount) :
    (declarators.any fun declarator => MemberPart.losesAttribute false declarator.parts) =
      false := by
  induction declarators generalizing isStatic with
  | nil => rfl
  | cons declarator declarators ih =>
      rw [declaredFields, declaredFields, List.map_cons, List.map_cons, List.cons.injEq] at h
      refine Bool.or_eq_false_iff.mpr ⟨?_, ih h.2⟩
      by_contra hloses
      have hshorter := MemberPart.length_keptBlocks_lt (by simpa using hloses)
      exact (countP_attributes_lt MemberPart.kind_blocks hshorter annotations).ne h.1

end Fields

section Functions

-- What may follow the parameters of a function.
inductive TailPart where
  | qualifier (qualifier : Qualifier)
  | attributed (attributes : AttributeTokens)

namespace TailPart

def tokens : TailPart → List Token
  | qualifier part => part.tokens
  | attributed attributes => attributes.tokens

def blocks : TailPart → List AnnotationBlock
  | qualifier _ => []
  | attributed attributes => [attributes.block]

def isAttributed : TailPart → Bool
  | qualifier _ => false
  | attributed _ => true

end TailPart

structure AttributedFunction where
  parts : List MemberPart
  name : FunctionName
  -- directly behind the name
  attributes : List AttributeTokens
  parameters : Parameters
  tail : List TailPart
  ending : FunctionEnd

namespace AttributedFunction

variable (function : AttributedFunction)

-- A function behind its name and the attributes of the name.
def behind : List Token :=
  function.parameters.tokens ++ (function.tail.flatMap TailPart.tokens ++ function.ending.tokens)

def tokens : List Token :=
  function.parts.flatMap MemberPart.tokens ++ (function.name.tokens ++
    (function.attributes.flatMap AttributeTokens.tokens ++ function.behind))

def isOperator : Bool :=
  match function.name with
  | .operator .. => true
  | _ => false

def member (access : Access) (annotations : List AnnotationBlock) : Member :=
  .method ⟨function.name.text, function.name.kind, function.parts.any MemberPart.isStatic, access,
    annotations ++ (function.parts.flatMap MemberPart.blocks ++
      (function.attributes.map AttributeTokens.block ++ function.tail.flatMap TailPart.blocks)),
    .none⟩

-- The attributes behind the name that are kept. The symbol of an operator takes them in.
def keptNameBlocks : List AnnotationBlock :=
  if function.isOperator then [] else function.attributes.map AttributeTokens.block

def losesAttribute : Bool :=
  MemberPart.losesAttribute false function.parts ||
    (function.isOperator && !function.attributes.isEmpty) ||
      function.tail.any TailPart.isAttributed

-- Only constructors are called like their class, and a member function has a type.
def Fits (className : Option String) : Prop :=
  match function.name with
  | .regular name _ => some name.word ≠ className ∧ function.parts.any MemberPart.isName = true
  | .constructor name _ => some name.word = className
  | .destructor .. | .operator .. => True

theorem behind_cons (rest : List Token) :
    ∃ inner, function.behind ++ rest = function.parameters.opening :: inner ∧
      kindAt inner ∉ [.star, .amp] := by
  rw [behind, List.append_assoc]
  exact function.parameters.tokens_cons _

theorem skipFunctionEnd_tailParts {tail : List TailPart}
    (h : tail.any TailPart.isAttributed = false) (rest : List Token) :
    skipFunctionEnd ending (tail.flatMap TailPart.tokens ++ rest) =
      skipFunctionEnd ending rest := by
  induction tail with
  | nil => rfl
  | cons part tail ih =>
      obtain ⟨hpart, htail⟩ := Bool.or_eq_false_iff.mp h
      cases part with
      | qualifier qualifier =>
          have hskip := @skipFunctionEnd_qualifiers ending [qualifier]
            (tail.flatMap TailPart.tokens ++ rest)
          rw [List.flatMap_singleton] at hskip
          rw [List.flatMap_cons, List.append_assoc, TailPart.tokens, hskip, ih htail]
      | attributed attributes => cases hpart

-- Without attributes behind the parameters, all that follows them is passed over.
theorem skipFunctionEnd_behind (h : function.tail.any TailPart.isAttributed = false)
    {rest : List Token} (hrest : kindAt rest ≠ .semicolon) :
    skipFunctionEnd ending (function.behind ++ rest) = .done () rest := by
  rw [behind, List.append_assoc, List.append_assoc,
    skipFunctionEnd_parens function.parameters.wholeGroup, skipFunctionEnd_tailParts h,
    skipFunctionEnd_end function.ending hrest]

end AttributedFunction

theorem memberDeclaration_attributeList (attributes : List AttributeTokens) (rest : List Token) :
    memberDeclaration context ending seen (attributes.flatMap AttributeTokens.tokens ++ rest) =
      memberDeclaration context ending
        { seen with attributes := seen.attributes ++ attributes.map AttributeTokens.block }
        rest := by
  induction attributes generalizing seen with
  | nil => rw [List.map_nil, List.append_nil]; rfl
  | cons block attributes ih =>
      rw [List.flatMap_cons, List.append_assoc, memberDeclaration_attributes, ih, List.map_cons,
        List.append_assoc, List.singleton_append]

theorem FunctionName.kindAt_tokens (name : FunctionName) (rest : List Token) :
    kindAt (name.tokens ++ rest) ∉ [.attrOpen, .alignasKw] := by
  cases name with
  | regular name hkind | constructor name hkind => simp [FunctionName.tokens, hkind]
  | destructor tilde name htilde hkind => simp [FunctionName.tokens, htilde]
  | operator keyword symbol hkeyword => simp [FunctionName.tokens, hkeyword]

theorem memberDeclaration_functionParts (function : AttributedFunction) (rest : List Token) :
    memberDeclaration context ending .nothing (function.tokens ++ rest) =
      memberDeclaration context ending (Seen.nothing.behindParts false function.parts)
        (function.name.tokens ++ (function.attributes.flatMap AttributeTokens.tokens ++
          (function.behind ++ rest))) := by
  rw [AttributedFunction.tokens, List.append_assoc, List.append_assoc, List.append_assoc]
  exact (memberDeclaration_memberParts context .nothing function.parts
    (function.name.kindAt_tokens _)).1

-- Up to its parameters, a function is read as a name, and as the attributes of the name.
theorem memberDeclaration_functionName (function : AttributedFunction)
    (hfits : function.Fits context.className)
    (hoperator : function.isOperator = true → function.attributes = []) (rest : List Token) :
    ∃ seen : Seen, seen.isStatic = function.parts.any MemberPart.isStatic ∧
      seen.attributes = MemberPart.keptBlocks false function.parts ++ function.keptNameBlocks ∧
      memberDeclaration context ending .nothing (function.tokens ++ rest) =
        context.method ending seen function.name.text function.name.kind
          (function.behind ++ rest) := by
  obtain ⟨inner, hbehind, hplain⟩ := function.behind_cons rest
  rw [memberDeclaration_functionParts]
  unfold AttributedFunction.Fits at hfits
  unfold AttributedFunction.isOperator at hoperator
  unfold AttributedFunction.keptNameBlocks AttributedFunction.isOperator
  cases hname : function.name with
  | regular name hkind =>
      rw [hname] at hfits
      have htyped : 0 < function.parts.countP MemberPart.isName :=
        List.countP_pos_iff.mpr (List.any_eq_true.mp hfits.2)
      rw [FunctionName.tokens, List.singleton_append, memberDeclaration_cons, hkind]
      dsimp only
      rw [memberDeclaration_attributeList, hbehind, memberDeclaration_opening context _ .regular
        function.parameters.opening_kind hplain rfl (if_neg hfits.1) fun _ => ?_]
      · exact ⟨_, rfl, rfl, rfl⟩
      · simpa [Seen.behindParts, Seen.nothing] using htyped.ne'
  | constructor name hkind =>
      rw [hname] at hfits
      rw [FunctionName.tokens, List.singleton_append, memberDeclaration_cons, hkind]
      dsimp only
      rw [memberDeclaration_attributeList, hbehind, memberDeclaration_opening context _ .constructor
        function.parameters.opening_kind hplain rfl (if_pos hfits) fun h => by cases h]
      exact ⟨_, rfl, rfl, rfl⟩
  | destructor tilde name htilde hkind =>
      rw [FunctionName.tokens, List.cons_append, List.singleton_append, memberDeclaration_cons,
        htilde]
      dsimp only
      rw [memberDeclaration_cons, hkind]
      dsimp only
      rw [memberDeclaration_attributeList, hbehind, memberDeclaration_opening context _ .destructor
        function.parameters.opening_kind hplain rfl rfl fun h => by cases h]
      exact ⟨_, rfl, rfl, rfl⟩
  | operator keyword symbol hkeyword =>
      rw [hname] at hoperator
      have hparen : kindAt (function.behind ++ rest) = .lParen := by
        rw [hbehind, kindAt_cons, function.parameters.opening_kind]
      rw [FunctionName.tokens, List.cons_append, memberDeclaration_cons, hkeyword]
      dsimp only
      rw [hoperator rfl, List.flatMap_nil, List.nil_append, MemberContext.operator,
        operatorName_symbol symbol hparen]
      exact ⟨_, rfl, (List.append_nil _).symm, rfl⟩

theorem MembersRead.IsFunction.annotations {read : MembersRead} (h : read.IsFunction context seen)
    (herror : read.error = none) :
    ∃ decl, read.members = [.method decl] ∧
      decl.annotations = context.annotations ++ seen.attributes := by
  cases h with
  | failed => cases herror
  | read => exact ⟨_, rfl, rfl⟩

-- Whatever follows the name, a function that is read has the attributes kept up to there.
theorem memberDeclaration_annotations (function : AttributedFunction)
    (hfits : function.Fits context.className) {rest : List Token}
    (h : (memberDeclaration context ending .nothing (function.tokens ++ rest)).error = none) :
    ∃ decl, (memberDeclaration context ending .nothing (function.tokens ++ rest)).members =
        [.method decl] ∧
      decl.annotations = context.annotations ++
        (MemberPart.keptBlocks false function.parts ++ function.keptNameBlocks) := by
  by_cases hoperator : function.isOperator = true → function.attributes = []
  · obtain ⟨seen, _, hattributes, hread⟩ :=
      memberDeclaration_functionName function hfits hoperator rest
    rw [hread] at h ⊢
    rw [← hattributes]
    exact (method_isFunction _ _).annotations h
  · have hname : function.isOperator = true := by
      by_contra hother
      exact hoperator fun h => absurd h hother
    rw [memberDeclaration_functionParts] at h ⊢
    rw [AttributedFunction.keptNameBlocks, if_pos hname, List.append_nil]
    unfold AttributedFunction.isOperator at hname
    cases hcases : function.name with
    | operator keyword symbol hkeyword =>
        rw [hcases, FunctionName.tokens, List.cons_append, memberDeclaration_cons, hkeyword] at h
        rw [FunctionName.tokens, List.cons_append, memberDeclaration_cons, hkeyword]
        exact operator_isFunction.annotations h
    | _ => simp [hcases] at hname

theorem AttributedFunction.not_loses {function : AttributedFunction}
    (h : function.losesAttribute = false) :
    MemberPart.losesAttribute false function.parts = false ∧
      (function.isOperator = true → function.attributes = []) ∧
        function.tail.any TailPart.isAttributed = false := by
  unfold losesAttribute at h
  simp only [Bool.or_eq_false_iff, Bool.and_eq_false_iff, Bool.not_eq_false',
    List.isEmpty_iff] at h
  refine ⟨h.1.1, fun hoperator => ?_, h.2⟩
  rcases h.1.2 with hother | hnone
  · rw [hoperator] at hother
    cases hother
  · exact hnone

theorem memberDeclaration_attributedFunction (function : AttributedFunction)
    (hfits : function.Fits context.className) (h : function.losesAttribute = false)
    {rest : List Token} (hrest : kindAt rest ≠ .semicolon) :
    ∃ members, memberDeclaration context ending .nothing (function.tokens ++ rest) =
        ⟨members, none, rest⟩ ∧
      unplacedMembers members =
        unplacedMembers [function.member context.access context.annotations] := by
  obtain ⟨hparts, hoperator, htail⟩ := function.not_loses h
  obtain ⟨seen, hstatic, hattributes, hread⟩ :=
    @memberDeclaration_functionName ending context function hfits hoperator rest
  have hname : function.keptNameBlocks = function.attributes.map AttributeTokens.block := by
    unfold AttributedFunction.keptNameBlocks
    split
    · next hop => rw [hoperator hop]; rfl
    · rfl
  have hbehind : function.tail.flatMap TailPart.blocks = [] := by
    refine List.flatMap_eq_nil_iff.mpr fun part hmem => ?_
    cases part with
    | qualifier => rfl
    | attributed attributes => exact absurd rfl (List.any_eq_false.mp htail _ hmem)
  rw [hread, MemberContext.method, function.skipFunctionEnd_behind htail hrest]
  refine ⟨_, rfl, ?_⟩
  simp [AttributedFunction.member, unplacedMembers, Member.unplaced, MethodDecl.unplaced, hstatic,
    hattributes, hname, hbehind, MemberPart.keptBlocks_of_not_loses hparts]

theorem AttributedFunction.attributes_lost {function : AttributedFunction}
    (h : function.losesAttribute = true) :
    (MemberPart.keptBlocks false function.parts ++ function.keptNameBlocks).length <
      (function.parts.flatMap MemberPart.blocks ++
        (function.attributes.map AttributeTokens.block ++
          function.tail.flatMap TailPart.blocks)).length := by
  have hparts := MemberPart.length_keptBlocks_le false function.parts
  have hname : function.keptNameBlocks.length ≤ function.attributes.length := by
    unfold keptNameBlocks
    split
    · exact Nat.zero_le _
    · rw [List.length_map]
  simp only [List.length_append, List.length_map]
  unfold losesAttribute at h
  simp only [Bool.or_eq_true, Bool.and_eq_true, Bool.not_eq_true', List.isEmpty_eq_false_iff] at h
  rcases h with (hlost | ⟨hoperator, hne⟩) | hlost
  · have hlt := MemberPart.length_keptBlocks_lt hlost
    omega
  · have hnone : function.keptNameBlocks = [] := if_pos hoperator
    have hpos := List.length_pos_iff.mpr hne
    rw [hnone, List.length_nil]
    omega
  · obtain ⟨part, hmem, hpart⟩ := List.any_eq_true.mp hlost
    have hpos : 0 < (function.tail.flatMap TailPart.blocks).length := by
      cases part with
      | qualifier => cases hpart
      | attributed attributes =>
          exact List.length_pos_of_mem (List.mem_flatMap.mpr ⟨_, hmem, List.mem_singleton_self _⟩)
    omega

theorem AttributedFunction.kind_blocks (function : AttributedFunction) :
    ∀ block ∈ function.parts.flatMap MemberPart.blocks ++
      (function.attributes.map AttributeTokens.block ++ function.tail.flatMap TailPart.blocks),
        block.kind = .attribute := by
  intro block hmem
  rcases List.mem_append.mp hmem with hparts | hmem
  · exact MemberPart.kind_blocks block hparts
  · rcases List.mem_append.mp hmem with hname | htail
    · obtain ⟨attributes, _, rfl⟩ := List.mem_map.mp hname
      rfl
    · obtain ⟨part, _, hblock⟩ := List.mem_flatMap.mp htail
      cases part with
      | qualifier => cases hblock
      | attributed attributes => rw [List.mem_singleton.mp hblock]; rfl

end Functions

section Entries

inductive AttributedDeclaration where
  | fields (fields : AttributedFields)
  | function (function : AttributedFunction)

namespace AttributedDeclaration

def tokens : AttributedDeclaration → List Token
  | fields declaration => declaration.tokens
  | function declaration => declaration.tokens

-- The members with all attributes of theirs, in order.
def members (access : Access) (annotations : List AnnotationBlock) :
    AttributedDeclaration → List Member
  | fields declaration => declaration.members access annotations
  | function declaration => [declaration.member access annotations]

-- Does an attribute stand directly behind `alignas`, behind the symbol of an operator, or behind
-- the parameters of a function?
def losesAttribute : AttributedDeclaration → Bool
  | fields declaration => declaration.losesAttribute
  | function declaration => declaration.losesAttribute

def Fits (className : Option String) (rest : List Token) : AttributedDeclaration → Prop
  | fields _ => True
  | function declaration => declaration.Fits className ∧ kindAt rest ≠ .semicolon

variable {declaration : AttributedDeclaration} {rest : List Token}

theorem memberDeclaration_kept (hfits : declaration.Fits context.className rest)
    (h : declaration.losesAttribute = false) :
    ∃ found, memberDeclaration context ending .nothing (declaration.tokens ++ rest) =
        ⟨found, none, rest⟩ ∧
      unplacedMembers found =
        unplacedMembers (declaration.members context.access context.annotations) := by
  cases declaration with
  | fields declaration =>
      obtain ⟨found, hread, hfound⟩ :=
        @memberDeclaration_attributedFields ending context declaration rest
      exact ⟨found, hread, hfound.trans (congrArg unplacedMembers (declaredFields_kept h))⟩
  | function declaration =>
      exact memberDeclaration_attributedFunction declaration hfits.1 h hfits.2

-- Lost attributes are missing in what is read, even where that is not all of the declaration.
theorem counts_lost (hfits : declaration.Fits context.className rest)
    (herror : (memberDeclaration context ending .nothing (declaration.tokens ++ rest)).error = none)
    (hcounts : (memberDeclaration context ending .nothing
        (declaration.tokens ++ rest)).members.map Member.attributeCount =
      (declaration.members context.access context.annotations).map Member.attributeCount) :
    declaration.losesAttribute = false := by
  cases declaration with
  | fields declaration =>
      obtain ⟨found, hread, hfound⟩ :=
        @memberDeclaration_attributedFields ending context declaration rest
      rw [tokens, hread, attributeCounts_eq hfound] at hcounts
      exact attributeCounts_lost hcounts
  | function declaration =>
      obtain ⟨decl, hread, hannotations⟩ :=
        memberDeclaration_annotations declaration hfits.1 herror
      by_contra hloses
      have hshorter := AttributedFunction.attributes_lost ((Bool.not_eq_false _).mp hloses)
      have hlost := countP_attributes_lt declaration.kind_blocks hshorter context.annotations
      rw [tokens, hread] at hcounts
      rw [← hannotations] at hlost
      exact hlost.ne (List.cons.inj hcounts).1

end AttributedDeclaration

-- A declaration of a class body with the annotations in front of it.
structure AttributedMember where
  leading : List Leading
  declaration : AttributedDeclaration
  -- consecutive comment lines are one annotation
  runs : List.IsChain (fun one next => one.isDocs = true → next.isDocs = false) leading
  begins : kindAt declaration.tokens ∉ [.eof, .docComment, .attrOpen]

namespace AttributedMember

variable (entry : AttributedMember)

def tokens : List Token := entry.leading.flatMap Leading.tokens ++ entry.declaration.tokens

def members (access : Access) : List Member :=
  entry.declaration.members access (entry.leading.map Leading.block)

theorem tokens_cons (rest : List Token) :
    ∃ token more, entry.declaration.tokens ++ rest = token :: more ∧
      token.kind ∉ [.docComment, .attrOpen] := by
  have hbegins := entry.begins
  cases htokens : entry.declaration.tokens with
  | nil => simp [htokens] at hbegins
  | cons token more =>
      rw [htokens, kindAt_cons] at hbegins
      exact ⟨token, more ++ rest, rfl, fun hmem => hbegins (List.mem_cons_of_mem _ hmem)⟩

theorem leadingAnnotations_tokens (rest : List Token) :
    leadingAnnotations ending (entry.tokens ++ rest) =
      .done (entry.leading.map Leading.block) (entry.declaration.tokens ++ rest) := by
  obtain ⟨token, more, htokens, hkind⟩ := entry.tokens_cons rest
  rw [tokens, List.append_assoc, htokens]
  exact leadingAnnotations_leading entry.runs hkind more

end AttributedMember

-- The members of a declaration have all of its attributes, each once and in order, exactly if none
-- stands directly behind `alignas`, behind the symbol of an operator or behind parameters.
theorem attributed_declares_iff (entry : AttributedMember) {className : Option String}
    {access : Access} {rest : List Token} (hfits : entry.declaration.Fits className rest)
    (hform : memberForm (entry.declaration.tokens ++ rest) = .plain) :
    (memberStep .tolerant ending className access (entry.tokens ++ rest)).Declares access
        (commented (trailingDoc rest).1 (entry.members access)) (trailingDoc rest).2 ↔
      entry.declaration.losesAttribute = false := by
  rw [memberStep_declares_iff (entry.leadingAnnotations_tokens rest)]
  constructor
  · intro h
    obtain ⟨token, more, htokens, _⟩ := entry.tokens_cons rest
    rw [htokens] at h hform
    obtain ⟨herror, hfound, _⟩ := (member_declares_iff hform).mp h
    rw [← htokens] at herror hfound
    have hcounts := attributeCounts_eq hfound
    rw [attributeCounts_commented, attributeCounts_commented] at hcounts
    exact @AttributedDeclaration.counts_lost ending
      ⟨token.span, entry.leading.map Leading.block, access, className⟩ _ _ hfits herror hcounts
  · intro h
    exact member_declares hform fun start =>
      @AttributedDeclaration.memberDeclaration_kept ending
        ⟨start, entry.leading.map Leading.block, access, className⟩ _ _ hfits h

end Entries

section Sample

open ClassHeader (tokenAt)

-- `[[a]] int f [[b]]() const;`
def attributedSample : AttributedMember where
  leading := [.attributed ⟨tokenAt .attrOpen 0 "" "[[", [tokenAt .ident 2 "" "a"],
    ⟨tokenAt .rBracket 3 "" "]", tokenAt .rBracket 4 "" "]", rfl, rfl⟩, rfl,
    .cons_cons nofun (.singleton _)⟩]
  declaration := .function {
    parts := [.type (.name (tokenAt .ident 6 " " "int") rfl)]
    name := .regular (tokenAt .ident 10 " " "f") rfl
    attributes := [⟨tokenAt .attrOpen 12 " " "[[", [tokenAt .ident 14 "" "b"],
      ⟨tokenAt .rBracket 15 "" "]", tokenAt .rBracket 16 "" "]", rfl, rfl⟩, rfl,
      .cons_cons nofun (.singleton _)⟩]
    parameters := ⟨tokenAt .lParen 17 "" "(", [], tokenAt .rParen 18 "" ")", rfl, rfl, .nil,
      by decide⟩
    tail := [.qualifier (.type (.name (tokenAt .ident 20 " " "const") rfl))]
    ending := .declared (tokenAt .semicolon 25 "" ";") rfl }
  runs := .singleton _
  begins := by decide

theorem attributed_declares_sample :
    (scan "[[a]] int f [[b]]() const;".toList).items = attributedSample.tokens ∧
      (memberStep .tolerant ⟨.eof, 26, [], []⟩ none .publicAccess
        (attributedSample.tokens ++ [])).Declares .publicAccess
          [.method ⟨"f", .regular, false, .publicAccess, [⟨.attribute, "a", ⟨0, 5⟩⟩,
            ⟨.attribute, "b", ⟨12, 17⟩⟩], .none⟩] [] := by
  have hfits : attributedSample.declaration.Fits none [] :=
    ⟨⟨Option.some_ne_none _, rfl⟩, by decide⟩
  have hform : memberForm (attributedSample.declaration.tokens ++ []) = .plain := rfl
  exact ⟨by decide +kernel, (attributed_declares_iff attributedSample hfits hform).mpr rfl⟩

-- Attributes behind `alignas` and behind parameters are dropped.
theorem attributed_lost :
    parsedBriefly "struct S \x7b alignas(8) [[a]] int x; \x7d;" =
        some ([("x", .publicAccess, [])], []) ∧
      parsedBriefly "struct S \x7b void f() [[a]]; \x7d;" = some ([("f", .publicAccess, [])], []) :=
  ⟨by decide +kernel, by decide +kernel⟩

end Sample

end Reflection.Header
