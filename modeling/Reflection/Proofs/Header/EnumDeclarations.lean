import Reflection.Proofs.Header.Enumerators

namespace Reflection.Header

variable {ending : Token}

section Names

-- The words of a qualified name.
def wordsOf (names : List Token) : List String :=
  (names.filter fun token => token.kind = .ident).map Token.word

variable {names tail : List Token}

theorem FollowingNames.moreNames (h : FollowingNames names)
    (htail : stopsHead (kindAt tail) = true) :
    Header.moreNames (names ++ tail) = (wordsOf names, tail) := by
  induction h with
  | nil => exact moreNames_stop (not_startsName_stop htail)
  | @cons separator name rest hseparator hname _ ih =>
      rw [List.cons_append, List.cons_append, Header.moreNames, if_pos ⟨hseparator, hname⟩, ih]
      simp [wordsOf, hseparator, hname]

theorem OptionalName.qualifiedName (h : OptionalName names)
    (htail : stopsHead (kindAt tail) = true) :
    Header.qualifiedName (names ++ tail) = (wordsOf names, tail) := by
  cases h with
  | none =>
      obtain ⟨token, rest, rfl, hkind⟩ := head_of_stop htail
      simp only [List.mem_cons, not_or] at hkind
      simp [Header.qualifiedName, hkind.1, wordsOf]
  | @some name rest hname hrest =>
      rw [List.cons_append, Header.qualifiedName, if_pos hname, hrest.moreNames htail]
      simp [wordsOf, hname]

theorem FollowingNames.nameParts (h : FollowingNames names) : NameParts names := by
  induction h with
  | nil => exact List.forall_mem_nil _
  | cons hseparator hname _ ih =>
      exact List.forall_mem_cons.mpr ⟨by simp [isNamePart, hseparator],
        List.forall_mem_cons.mpr ⟨by simp [isNamePart, hname], ih⟩⟩

theorem OptionalName.nameParts (h : OptionalName names) : NameParts names := by
  cases h with
  | none => exact List.forall_mem_nil _
  | some hname hrest =>
      exact List.forall_mem_cons.mpr ⟨by simp [isNamePart, hname], hrest.nameParts⟩

end Names

section Forms

-- The type that an enum is based on, with the colon in front of it.
structure UnderlyingType where
  colon : Token
  type : List Token
  colon_kind : colon.kind = .colon
  type_kinds : ∀ token ∈ type, token.kind ∉ [.lBrace, .semicolon]

def UnderlyingType.tokens (underlying : UnderlyingType) : List Token :=
  underlying.colon :: underlying.type

theorem UnderlyingType.skip (underlying : UnderlyingType) {brace : Token}
    (hbrace : brace.kind = .lBrace) (rest : List Token) :
    skipUnderlyingType ending (underlying.type ++ brace :: rest) = .done () (brace :: rest) := by
  have hkinds := underlying.type_kinds
  generalize underlying.type = type at hkinds ⊢
  induction type with
  | nil => rw [List.nil_append, skipUnderlyingType, hbrace]
  | cons token type ih =>
      have hkind := hkinds token List.mem_cons_self
      rw [List.cons_append, skipUnderlyingType, ← ih fun other hmem =>
        hkinds other (List.mem_cons_of_mem token hmem)]
      cases htoken : token.kind <;> simp_all

-- An enum with a body and no declarators behind it.
structure EnumForm where
  keywords : TypeHead.EnumKeywords
  specifiers : List Specifier
  name : List Token
  underlying : Option UnderlyingType
  brace : Token
  list : EnumeratorList
  closing : Token
  semicolon : Token
  isName : OptionalName name
  brace_kind : brace.kind = .lBrace
  closing_kind : closing.kind = .rBrace
  semicolon_kind : semicolon.kind = .semicolon

namespace EnumForm

variable (form : EnumForm)

def inside (rest : List Token) : List Token :=
  form.list.tokens ++ form.closing :: form.semicolon :: rest

-- The tokens behind the name.
def behind (rest : List Token) : List Token :=
  form.underlying.toList.flatMap UnderlyingType.tokens ++ form.brace :: form.inside rest

theorem stops (rest : List Token) : stopsHead (kindAt (form.behind rest)) = true := by
  unfold behind
  cases form.underlying with
  | none => simp [form.brace_kind, stopsHead]
  | some underlying => simp [UnderlyingType.tokens, underlying.colon_kind, stopsHead]

def head (rest : List Token) : TypeHead :=
  ⟨form.specifiers, form.name, form.behind rest, form.isName.nameParts, form.stops rest⟩

-- The tokens behind the first keyword, with others behind them.
def declared (rest : List Token) : List Token := (form.head rest).enumTokens form.keywords

def tokens : List Token :=
  form.keywords.first :: (form.keywords.second.toList ++
    (form.specifiers.flatMap Specifier.tokens ++ (form.name ++
      (form.underlying.toList.flatMap UnderlyingType.tokens ++ form.brace ::
        (form.list.tokens ++ [form.closing, form.semicolon])))))

theorem tokens_append (rest : List Token) :
    form.tokens ++ rest = form.keywords.first :: form.declared rest := by
  simp [tokens, declared, TypeHead.enumTokens, head, TypeHead.tokens, behind, inside]

-- The enum that is declared, without its place.
def decl (annotations : List AnnotationBlock) : EnumDecl :=
  ⟨joinName (wordsOf form.name), form.keywords.second.isSome, true,
    annotations ++ form.specifiers.flatMap Specifier.blocks, form.list.decls, .none⟩

theorem isScoped (rest : List Token) :
    decide (kindAt (form.declared rest) = .classKw ∨
      kindAt (form.declared rest) = .structKw) =
        form.keywords.second.isSome := by
  have hkinds := form.keywords.second_kind
  unfold declared TypeHead.enumTokens
  cases hsecond : form.keywords.second with
  | none =>
      have hkind := (form.head rest).kindAt_tokens
      exact decide_eq_false (by simpa using hkind)
  | some token =>
      have hkind := hkinds token hsecond
      exact decide_eq_true (by simpa using hkind)

theorem skip_underlying (rest : List Token) :
    (if kindAt (form.behind rest) = .colon then skipUnderlyingType ending (form.behind rest).tail
      else .done () (form.behind rest)) = .done () (form.brace :: form.inside rest) := by
  unfold behind
  cases form.underlying with
  | none => exact if_neg (by simp [form.brace_kind])
  | some underlying =>
      rw [Option.toList_some, List.flatMap_singleton, UnderlyingType.tokens, List.cons_append,
        kindAt_cons, if_pos underlying.colon_kind, List.tail_cons, underlying.skip form.brace_kind]

-- Reading an enum up to its body.
theorem enumDeclaration_eq (annotations : List AnnotationBlock) (rest : List Token) :
    enumDeclaration ending annotations form.keywords.first
        (form.declared rest) =
      enumBody ending (fun isDefinition decls after =>
        { form.decl annotations with
          isDefinition := isDefinition
          enumerators := decls
          span := spanFrom ending form.keywords.first.span after }) (form.inside rest) := by
  have hname : Header.qualifiedName ((form.head rest).names ++ (form.head rest).behind) =
      (wordsOf form.name, form.behind rest) := form.isName.qualifiedName (form.stops rest)
  have hexpect : expect ending .lBrace (form.brace :: form.inside rest) =
      .done () (form.inside rest) := if_pos form.brace_kind
  have hscoped := form.isScoped rest
  rw [declared] at hscoped
  rw [enumDeclaration]
  dsimp only
  rw [declared, (form.head rest).enumTokens_tail, (form.head rest).specifiers_tokens,
    Read.bind_done, hname]
  dsimp only
  rw [form.skip_underlying, Read.bind_done, if_neg (by simp [form.brace_kind]), hexpect,
    Read.bind_done, hscoped]
  rfl

theorem enumDeclaration_placed (annotations : List AnnotationBlock)
    (h : form.list.misplaced = false) (rest : List Token) :
    ∃ decl, enumDeclaration ending annotations form.keywords.first
        (form.declared rest) = .done (decl, []) rest ∧
      decl.unplaced = (form.decl annotations).unplaced := by
  obtain ⟨decls, hread, hdecls⟩ := @EnumeratorList.enumerators_placed ending form.closing
    (form.semicolon :: rest) form.list form.closing_kind h
  have hclosing : expect ending .rBrace (form.closing :: form.semicolon :: rest) =
      .done () (form.semicolon :: rest) := if_pos form.closing_kind
  have hnames : typeDeclarators ending none (form.semicolon :: rest) = .done [] rest := by
    rw [typeDeclarators_cons, form.semicolon_kind]
    rfl
  refine ⟨{ form.decl annotations with
    enumerators := decls
    span := spanFrom ending form.keywords.first.span (form.semicolon :: rest) }, ?_, ?_⟩
  · rw [form.enumDeclaration_eq, enumBody, inside, hread, Read.bind_done, hclosing, Read.bind_done,
      hnames]
    rfl
  · rw [EnumDecl.unplaced, EnumDecl.unplaced, hdecls]
    rfl

theorem enumDeclaration_misplaced {annotations : List AnnotationBlock}
    (h : form.list.misplaced = true) {rest after : List Token} {decl : EnumDecl}
    {names : List Token}
    (hread : enumDeclaration ending annotations form.keywords.first
      (form.declared rest) = .done (decl, names) after) :
    decl.unplaced ≠ (form.decl annotations).unplaced := by
  rw [form.enumDeclaration_eq, enumBody] at hread
  obtain ⟨decls, behind, hdecls, hread⟩ := Read.bind_eq_done hread
  obtain ⟨_, further, hclosing, hread⟩ := Read.bind_eq_done hread
  obtain ⟨_, _, hdecl⟩ := Read.map_eq_done hread
  cases hdecl
  rcases form.list.enumerators_misplaced (form.semicolon :: rest) form.closing_kind h hdecls with
    hcomma | hne
  · rw [expect, if_neg (by simp [hcomma])] at hclosing
    cases hclosing
  · exact fun hsame => hne (congrArg EnumDecl.enumerators hsame)

end EnumForm

end Forms

section Declarations

-- A reading of a scope's declaration that gives these entities and no error, and goes on at `rest`.
structure Recorded.Declares {bound : Nat} (entities : List Entity) (rest : List Token)
    (read : Recorded (List Entity) bound) : Prop where
  found : unplacedEntities read.found = unplacedEntities entities
  unreported : read.errors = []
  goesOn : read.next = rest

section Enums

variable {bound smaller : Nat} {read : Read (EnumDecl × List Token)} {rest : List Token}
  {decl : EnumDecl}

theorem Recorded.declares_enum_iff (hread : read.rest.length ≤ smaller) (hle : smaller ≤ bound) :
    (((Recorded.ofRead read hread).map fun read => [Entity.enumDecl read.1]).within
        hle).Declares [.enumDecl decl] rest ↔
      ∃ found names, read = .done (found, names) rest ∧ found.unplaced = decl.unplaced := by
  cases read with
  | failed error after =>
      refine iff_of_false (fun h => ?_) (by rintro ⟨_, _, ⟨⟩, _⟩)
      cases h.unreported
  | done value after =>
      obtain ⟨found, names⟩ := value
      constructor
      · rintro ⟨hfound, -, hrest⟩
        refine ⟨found, names, congrArg _ hrest, ?_⟩
        simpa [Recorded.found, Recorded.ofRead, Recorded.map, Recorded.within, Except.map,
          unplacedEntities, Entity.unplaced] using hfound
      · rintro ⟨_, _, ⟨⟩, hsame⟩
        refine ⟨?_, rfl, rfl⟩
        simpa [Recorded.found, Recorded.ofRead, Recorded.map, Recorded.within, Except.map,
          unplacedEntities, Entity.unplaced] using hsame

theorem MemberStep.declares_enum_iff {access : Access} (hread : read.rest.length ≤ smaller)
    (hle : smaller ≤ bound) :
    (MemberStep.ofRecorded access (((Recorded.ofRead read hread).map fun read =>
        typeMembers access (.enumDecl read.1) read.2).within hle)).Declares access
          [.type (.enumDecl decl)] rest ↔
      ∃ found, read = .done (found, []) rest ∧ found.unplaced = decl.unplaced := by
  cases read with
  | failed error after =>
      refine iff_of_false (fun h => ?_) (by rintro ⟨_, ⟨⟩, _⟩)
      cases h.unreported
  | done value after =>
      obtain ⟨found, names⟩ := value
      constructor
      · rintro ⟨hfound, -, -, hrest⟩
        obtain ⟨hentity, hnames⟩ := List.cons.inj hfound
        have hempty : names = [] := by
          rw [unplacedMembers_eq_map] at hnames
          simpa [unplacedMembers] using hnames
        refine ⟨found, ?_, ?_⟩
        · rw [hempty, ← hrest]
          rfl
        · exact Entity.enumDecl.inj (Member.type.inj hentity)
      · rintro ⟨_, ⟨⟩, hsame⟩
        exact ⟨congrArg (fun decl => [Member.type (.enumDecl decl)]) hsame, rfl, rfl, rfl⟩

end Enums

variable {form : EnumForm} {annotations : List AnnotationBlock} {front rest : List Token}

theorem EnumForm.declared_iff :
    (∃ decl names, enumDeclaration ending annotations form.keywords.first (form.declared rest) =
        .done (decl, names) rest ∧ decl.unplaced = (form.decl annotations).unplaced) ↔
      form.list.misplaced = false := by
  constructor
  · rintro ⟨decl, names, hread, hdecl⟩
    by_contra hmisplaced
    exact form.enumDeclaration_misplaced (by simpa using hmisplaced) hread hdecl
  · intro h
    obtain ⟨decl, hread, hdecl⟩ := @form.enumDeclaration_placed ending annotations h rest
    exact ⟨decl, [], hread, hdecl⟩

theorem EnumForm.startsTypeDeclaration_declared (form : EnumForm) (rest : List Token) :
    startsTypeDeclaration (form.keywords.first :: form.declared rest) = true :=
  (form.head rest).startsTypeDeclaration_pastTypeKey
    ((form.head rest).pastTypeKey_enumTokens form.keywords)

theorem scopeDeclaration_enum_iff :
    (scopeDeclaration .tolerant ending annotations
        (form.keywords.first :: form.declared rest)).Declares
          [.enumDecl (form.decl annotations)] rest ↔
      form.list.misplaced = false := by
  have hform : scopeForm (form.keywords.first :: form.declared rest) = .enumType := by
    have hstarts := form.startsTypeDeclaration_declared rest
    rw [scopeForm, kindAt_cons, form.keywords.first_kind]
    exact if_pos hstarts
  rw [scopeDeclaration_cons, hform]
  exact (Recorded.declares_enum_iff _ _).trans form.declared_iff

theorem member_enum_iff {className : Option String} {access : Access} :
    (member .tolerant ending className access annotations
        (form.keywords.first :: form.declared rest)).Declares access
          [.type (.enumDecl (form.decl annotations))] rest ↔
      form.list.misplaced = false := by
  have hform : memberForm (form.keywords.first :: form.declared rest) = .enumType := by
    have hstarts := form.startsTypeDeclaration_declared rest
    rw [memberForm, kindAt_cons, form.keywords.first_kind]
    exact if_pos hstarts
  rw [member_cons, hform]
  refine (MemberStep.declares_enum_iff _ _).trans ⟨?_, fun h => ?_⟩
  · rintro ⟨found, hread, hfound⟩
    exact form.declared_iff.mp ⟨found, [], hread, hfound⟩
  · exact form.enumDeclaration_placed annotations h rest

theorem scopeItem_declares_iff {entities : List Entity} {tokens : List Token}
    (hlead : leadingAnnotations ending front = .done annotations tokens) :
    (scopeItem .tolerant ending front).Declares entities rest ↔
      (scopeDeclaration .tolerant ending annotations tokens).Declares entities rest := by
  rw [scopeItem_eq_after, Recorded.after_done hlead]
  exact ⟨fun h => ⟨h.found, h.unreported, h.goesOn⟩, fun h => ⟨h.found, h.unreported, h.goesOn⟩⟩

-- In a scope, such a declaration stands for its entities, whatever else is around it.
theorem scope_declares {entities : List Entity} {tokens : List Token} (nested : Bool)
    (hlead : leadingAnnotations ending front = .done annotations tokens)
    (hopen : kindAt tokens ≠ .rBrace)
    (h : (scopeDeclaration .tolerant ending annotations tokens).Declares entities rest)
    (hlength : rest.length < tokens.length) :
    ∃ found, unplacedEntities found = unplacedEntities entities ∧
      Recorded.Extends found [] (scope .tolerant ending nested rest)
        (scope .tolerant ending nested front) := by
  have hshorter := leadingAnnotations_length hlead
  have hitem := (scopeItem_declares_iff hlead).mpr h
  cases front with
  | nil =>
      rw [List.length_nil] at hshorter
      omega
  | cons token more =>
      have hfirst : token.kind ≠ .rBrace := by
        intro hkind
        rw [leadingAnnotations_plain (by simp [hkind])] at hlead
        cases hlead
        exact hopen hkind
      have hextends := @scope_extends .tolerant ending token nested more hfirst (.inl rfl)
      rw [hitem.goesOn, resume, if_pos (by omega), hitem.unreported] at hextends
      exact ⟨_, hitem.found, hextends⟩

-- In a scope as in a class body, an enum declares all its enumerators with their comments and
-- nothing else, exactly if no comment stands in front of a comma, or behind the value of the last
-- enumerator.
theorem enum_declares_iff (form : EnumForm) (nested : Bool) {className : Option String}
    {access : Access} (hlead : leadingAnnotations ending front =
      .done annotations (form.tokens ++ rest)) :
    ((scopeItem .tolerant ending front).Declares [.enumDecl (form.decl annotations)] rest ↔
      form.list.misplaced = false) ∧
    ((memberStep .tolerant ending className access front).Declares access
        [.type (.enumDecl (form.decl annotations))] rest ↔
      form.list.misplaced = false) ∧
    (form.list.misplaced = false →
      (∃ found, unplacedEntities found =
          unplacedEntities [.enumDecl (form.decl annotations)] ∧
        Recorded.Extends found [] (scope .tolerant ending nested rest)
          (scope .tolerant ending nested front)) ∧
      ∃ found, unplacedMembers found =
          unplacedMembers [.type (.enumDecl (form.decl annotations))] ∧
        Recorded.Extends found [] (classBody .tolerant ending className access rest)
          (classBody .tolerant ending className access front)) := by
  have hlength : rest.length < (form.tokens ++ rest).length := by
    rw [List.length_append, EnumForm.tokens, List.length_cons]
    omega
  have hopen : kindAt (form.tokens ++ rest) ≠ .rBrace := by
    simp [form.tokens_append, form.keywords.first_kind]
  have hscope := @scopeDeclaration_enum_iff ending form annotations rest
  have hmember := @member_enum_iff ending form annotations rest className access
  rw [← form.tokens_append] at hscope hmember
  rw [scopeItem_declares_iff hlead, memberStep_declares_iff hlead]
  exact ⟨hscope, hmember, fun h => ⟨scope_declares nested hlead hopen (hscope.mpr h) hlength,
    classBody_extends_declared hlead hopen (hmember.mpr h) hlength⟩⟩

end Declarations

section Sample

open ClassHeader (tokenAt)

-- The names of enumerators and the texts of their annotations.
def Entity.enumerators : Entity → List (String × List String)
  | .enumDecl decl => decl.enumerators.map fun enumerator =>
      (enumerator.name, enumerator.annotations.map AnnotationBlock.text)
  | _ => []

-- The enumerators of a header, and the messages of what is reported.
def parsedEnumerators (text : String) :
    Option (List (String × List String) × List String) :=
  (parse .tolerant text.toList).toOption.map fun read =>
    (read.tree.entities.flatMap Entity.enumerators, read.recovered.map ParseError.message)

-- `/// x`, `A [[k]] = 1, ///< a`
def separatedSample : SeparatedForm where
  form := {
    leading := [.docs (tokenAt .docComment 21 " " "/// x") [] (by decide)]
    name := tokenAt .ident 28 "\n " "A"
    specifiers := [.attributed ⟨tokenAt .attrOpen 30 " " "[[", [tokenAt .ident 32 "" "k"],
      ⟨tokenAt .rBracket 33 "" "]", tokenAt .rBracket 34 "" "]", rfl, rfl⟩, rfl,
      .cons_cons (by decide) (.singleton _)⟩]
    value := some ⟨tokenAt .eq 36 " " "=", [tokenAt .number 38 " " "1"], rfl,
      .token (by decide) rfl rfl .nil, by decide⟩
    trailing := some ⟨tokenAt .docComment 41 " " "///< a", by decide⟩
    name_kind := rfl
    runs := .singleton _ }
  comma := tokenAt .comma 39 "" ","
  trailingFirst := false
  comma_kind := rfl

-- `enum class E : int { /// x`, `A [[k]] = 1, ///< a`, `};`
def enumSample : EnumForm where
  keywords := ⟨tokenAt .enumKw 0 "" "enum", some (tokenAt .classKw 5 " " "class"), rfl,
    by simp [tokenAt]⟩
  specifiers := []
  name := [tokenAt .ident 11 " " "E"]
  underlying := some ⟨tokenAt .colon 13 " " ":", [tokenAt .ident 15 " " "int"], rfl, by decide⟩
  brace := tokenAt .lBrace 19 " " "\x7b"
  list := ⟨[separatedSample], none⟩
  closing := tokenAt .rBrace 49 "\n " "\x7d"
  semicolon := tokenAt .semicolon 50 "" ";"
  isName := .some rfl .nil
  brace_kind := rfl
  closing_kind := rfl
  semicolon_kind := rfl

theorem enum_declares_sample :
    (scan "enum class E : int \x7b /// x\n A [[k]] = 1, ///< a\n \x7d;".toList).items =
        enumSample.tokens ∧
      (scopeItem .tolerant ⟨.eof, 51, [], []⟩ (enumSample.tokens ++ [])).Declares
        [.enumDecl (enumSample.decl [])] [] := by
  have hlead : leadingAnnotations ⟨.eof, 51, [], []⟩ (enumSample.tokens ++ []) =
      .done [] (enumSample.tokens ++ []) := leadingAnnotations_plain (by decide) _
  refine ⟨?_, (@enum_declares_iff _ _ _ _ enumSample false none .publicAccess hlead).1.mpr rfl⟩
  simp only [String.reduceToList]
  decide +kernel

-- In front of a comma a comment ends the list, and a value takes it as a part of itself.
theorem enumerators_lost :
    parsedEnumerators "enum E \x7b A ///< a\n, B \x7d;" =
        some ([], ["unexpected token: expected '\x7d', found ','", "unmatched '\x7d'"]) ∧
      parsedEnumerators "enum E \x7b A = 1 ///< a\n, B \x7d;" =
        some ([("A", []), ("B", [])], []) ∧
      parsedEnumerators "enum E \x7b A = 1 ///< a\n \x7d;" = some ([("A", [])], []) := by
  unfold parsedEnumerators
  simp only [String.reduceToList]
  decide +kernel

end Sample

end Reflection.Header
