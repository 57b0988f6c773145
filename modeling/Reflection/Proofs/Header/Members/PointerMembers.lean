import Reflection.Proofs.Header.Members.Headers
import Reflection.Proofs.Header.Members.Parts

namespace Reflection.Header

variable {ending : Token} {context : MemberContext}

-- A data member `type (path::*name)(parameters);`.
structure PointerMember where
  type : List TypePart
  -- the names of classes, each with its `::`
  path : List (Token × Token)
  pointer : FunctionPointer
  semicolon : Token
  typed : type.any TypePart.isName = true
  path_kinds : ∀ entry ∈ path, entry.1.kind = .ident ∧ entry.2.kind = .colonColon
  semicolon_kind : semicolon.kind = .semicolon

namespace PointerMember

variable (declaration : PointerMember)

def pathTokens (path : List (Token × Token)) : List Token :=
  path.flatMap fun entry => [entry.1, entry.2]

-- The tokens behind the first parenthesis.
def inside : List Token :=
  pathTokens declaration.path ++ (declaration.pointer.marks ++ declaration.pointer.name ::
    declaration.pointer.closing :: declaration.pointer.parameters)

def tokens : List Token :=
  declaration.type.flatMap TypePart.tokens ++
    declaration.pointer.opening :: (declaration.inside ++ [declaration.semicolon])

-- The field that the declaration is for, without its place.
def field (access : Access) (annotations : List AnnotationBlock) : Member :=
  .field ⟨declaration.pointer.name.word, false, access, annotations, .none⟩

theorem pastPointerMarks_path {path : List (Token × Token)}
    (h : ∀ entry ∈ path, entry.1.kind = .ident ∧ entry.2.kind = .colonColon) (rest : List Token) :
    pastPointerMarks (pathTokens path ++ rest) = pastPointerMarks rest := by
  induction path with
  | nil => rfl
  | cons entry path ih =>
      obtain ⟨hname, hcolons⟩ := h entry List.mem_cons_self
      have hread := ih fun other hmem => h other (List.mem_cons_of_mem entry hmem)
      have htokens : pathTokens (entry :: path) ++ rest =
          entry.1 :: entry.2 :: (pathTokens path ++ rest) := rfl
      have hstrip : kindAt (entry.2 :: (pathTokens path ++ rest)) = .colonColon := hcolons
      rw [htokens, pastPointerMarks, hname]
      dsimp only
      rw [if_pos hstrip, pastPointerMarks, hcolons]
      exact hread

-- Once a pointer is expected, its name is found behind any path.
theorem functionPointer_inside (rest : List Token) :
    functionPointer ending (declaration.inside ++ rest) = .done declaration.pointer.name rest := by
  have hpointer := @declaration.pointer.functionPointer_tokens ending rest
  unfold functionPointer at hpointer ⊢
  rw [inside, List.append_assoc, pastPointerMarks_path declaration.path_kinds, List.append_assoc]
  exact hpointer

def parts : List MemberPart :=
  declaration.type.map MemberPart.type ++ [MemberPart.pointer declaration.pointer]

theorem tokens_of_nil (h : declaration.path = []) (rest : List Token) :
    declaration.tokens ++ rest =
      declaration.parts.flatMap MemberPart.tokens ++ (declaration.semicolon :: rest) := by
  have htypes : (declaration.type.map MemberPart.type).flatMap MemberPart.tokens =
      declaration.type.flatMap TypePart.tokens := by
    rw [List.flatMap_map]
    rfl
  rw [parts, List.flatMap_append, htypes, List.flatMap_singleton, tokens, inside, h]
  simp [pathTokens, MemberPart.tokens, FunctionPointer.tokens]

theorem behindParts_parts :
    (Seen.nothing.behindParts false declaration.parts).name = some declaration.pointer.name ∧
      (Seen.nothing.behindParts false declaration.parts).isStatic = false ∧
        (Seen.nothing.behindParts false declaration.parts).attributes = [] := by
  have hkept (types : List TypePart) : MemberPart.keptBlocks false
      (types.map MemberPart.type ++ [MemberPart.pointer declaration.pointer]) = [] := by
    induction types with
    | nil => rfl
    | cons type types ih => exact ih
  refine ⟨?_, ?_, hkept declaration.type⟩
  · simp [Seen.behindParts, parts, MemberPart.lastName, MemberPart.name]
  · simp [Seen.behindParts, parts, MemberPart.isStatic, Seen.nothing]

-- Without a path the name in the parentheses is that of the field.
theorem memberDeclaration_pointer (h : declaration.path = []) (rest : List Token) :
    ∃ span, memberDeclaration context ending .nothing (declaration.tokens ++ rest) =
      ⟨[.field ⟨declaration.pointer.name.word, false, context.access, context.annotations, span⟩],
        none, rest⟩ := by
  have hrest : kindAt (declaration.semicolon :: rest) ∉ [.attrOpen, .alignasKw] := by
    simp [declaration.semicolon_kind]
  obtain ⟨hname, hstatic, hkept⟩ := declaration.behindParts_parts
  rw [declaration.tokens_of_nil h, (memberDeclaration_memberParts _ _ _ hrest).1,
    memberDeclaration_cons, declaration.semicolon_kind]
  dsimp only
  rw [hname]
  dsimp only
  rw [MemberContext.field, hstatic, hkept, List.append_nil]
  exact ⟨_, rfl⟩

-- With a path the parentheses are taken for parameters, or for those of a macro.
theorem memberDeclaration_path (h : declaration.path ≠ []) (rest : List Token) :
    (memberDeclaration context ending .nothing (declaration.tokens ++ rest)).members = [] ∨
      ∃ decl, (memberDeclaration context ending .nothing (declaration.tokens ++ rest)).members =
        [.method decl] := by
  obtain ⟨name, hseen⟩ := @foldl_pass .nothing declaration.type
  obtain ⟨entry, path, hpath⟩ := List.exists_cons_of_ne_nil h
  have hkind := (declaration.path_kinds entry (by simp [hpath])).1
  have hopening : kindAt (declaration.inside ++ (declaration.semicolon :: rest)) = .ident := by
    rw [inside, hpath]
    exact hkind
  rw [tokens, List.append_assoc, memberDeclaration_parts, hseen, List.cons_append,
    List.append_assoc, List.singleton_append, memberDeclaration_cons,
    declaration.pointer.opening_kind]
  dsimp only
  rw [hopening, if_neg (by decide)]
  cases name with
  | none => exact .inl rfl
  | some name =>
      rcases named_isFunction name declaration.pointer.opening with hread | ⟨_, hnone⟩
      · exact hread.single
      · exact .inl hnone

theorem startsPlain : StartsPlain declaration.tokens := by
  have htyped := declaration.typed
  rw [tokens]
  cases htype : declaration.type with
  | nil =>
      rw [htype] at htyped
      cases htyped
  | cons part parts =>
      rw [List.flatMap_cons, List.append_assoc]
      exact (startsPlain_part part).append _

end PointerMember

-- A pointer to functions declares its field and nothing else, wherever it stands, exactly if no
-- path of class names is in front of the mark. The path is no obstacle to reading the declarator.
theorem pointer_declares_iff (declaration : PointerMember) {className : Option String}
    {access : Access} {annotations : List AnnotationBlock} {front rest : List Token}
    (hlead : leadingAnnotations ending front = .done annotations (declaration.tokens ++ rest)) :
    ((memberStep .tolerant ending className access front).Declares access
        (commented (trailingDoc rest).1 [declaration.field access annotations])
        (trailingDoc rest).2 ↔
      declaration.path = []) ∧
    (declaration.path = [] →
      ∃ found, unplacedMembers found =
          unplacedMembers (commented (trailingDoc rest).1 [declaration.field access annotations]) ∧
        Recorded.Extends found []
          (classBody .tolerant ending className access (trailingDoc rest).2)
          (classBody .tolerant ending className access front)) ∧
    functionPointer ending (declaration.inside ++ (declaration.semicolon :: rest)) =
      .done declaration.pointer.name (declaration.semicolon :: rest) := by
  obtain ⟨token, more, htokens, hkind⟩ := declaration.startsPlain.append rest
  have hform : memberForm (declaration.tokens ++ rest) = .plain :=
    htokens ▸ memberForm_plain hkind more
  have hdeclares (h : declaration.path = []) :
      (member .tolerant ending className access annotations (declaration.tokens ++ rest)).Declares
        access (commented (trailingDoc rest).1 [declaration.field access annotations])
          (trailingDoc rest).2 := by
    refine member_declares hform fun start => ?_
    obtain ⟨span, hread⟩ := @declaration.memberDeclaration_pointer ending
      ⟨start, annotations, access, className⟩ h rest
    exact ⟨_, hread, rfl⟩
  rw [memberStep_declares_iff hlead]
  refine ⟨⟨fun h => ?_, hdeclares⟩, fun h => ?_, declaration.functionPointer_inside _⟩
  · by_contra hpath
    rw [htokens] at h hform
    obtain ⟨_, hfound, _⟩ := (member_declares_iff hform).mp h
    rw [← htokens] at hfound
    rcases @declaration.memberDeclaration_path ending ⟨token.span, annotations, access, className⟩
      hpath rest with hread | ⟨decl, hread⟩
    · rw [hread] at hfound
      have hlength := congrArg List.length hfound
      rw [length_unplaced_commented, length_unplaced_commented] at hlength
      cases hlength
    · rw [hread] at hfound
      exact commented_method_ne hfound
  · refine classBody_declares hlead hform (hdeclares h) ?_
    have hshorter := (trailingDoc_suffix rest).length_le
    rw [List.length_append, PointerMember.tokens, List.length_append, List.length_cons]
    omega

section Sample

open ClassHeader (tokenAt)

-- `list<int>& (*m)(int);`
def pointerSample : PointerMember where
  type := [.name (tokenAt .ident 0 "" "list") rfl,
    .arguments (tokenAt .lt 4 "" "<") [tokenAt .ident 5 "" "int"] (tokenAt .gt 8 "" ">") rfl
      (.token (by decide) rfl rfl .nil) rfl,
    .mark (tokenAt .amp 9 "" "&") (by decide)]
  path := []
  pointer := {
    opening := tokenAt .lParen 11 " " "("
    marks := [tokenAt .star 12 "" "*"]
    name := tokenAt .ident 13 "" "m"
    closing := tokenAt .rParen 14 "" ")"
    parameters := [tokenAt .lParen 15 "" "(", tokenAt .ident 16 "" "int",
      tokenAt .rParen 19 "" ")"]
    opening_kind := rfl
    marks_ne := List.cons_ne_nil _ _
    mark_kinds := by decide
    name_kind := rfl
    closing_kind := rfl
    isParameters := @WholeGroup.delimiters (tokenAt .lParen 15 "" "(") (tokenAt .rParen 19 "" ")")
      [tokenAt .ident 16 "" "int"] ⟨rfl, nofun, rfl⟩ (.token rfl rfl .nil) }
  semicolon := tokenAt .semicolon 20 "" ";"
  typed := rfl
  path_kinds := List.forall_mem_nil _
  semicolon_kind := rfl

theorem pointer_declares_sample :
    (scan "list<int>& (*m)(int);".toList).items = pointerSample.tokens ∧
      (memberStep .tolerant ⟨.eof, 21, [], []⟩ none .publicAccess
        (pointerSample.tokens ++ [])).Declares .publicAccess
          [pointerSample.field .publicAccess []] [] := by
  have hlead : leadingAnnotations ⟨.eof, 21, [], []⟩ (pointerSample.tokens ++ []) =
      .done [] (pointerSample.tokens ++ []) := leadingAnnotations_plain (by decide) _
  refine ⟨?_, (pointer_declares_iff pointerSample hlead).1.mpr rfl⟩
  simp only [String.reduceToList]
  decide +kernel

-- The declarator is taken for the arguments of a macro, or for the parameters of a function.
theorem pointer_lost :
    parsedBriefly "struct S \x7b void (A::*m)(int); \x7d;" =
        some ([], ["unexpected token: expected identifier, found '('"]) ∧
      parsedBriefly "struct S \x7b unsigned int (A::*m)(int); \x7d;" =
        some ([("int", .publicAccess, [])], []) :=
  ⟨by decide +kernel, by decide +kernel⟩

end Sample

end Reflection.Header
