import Reflection.Proofs.Selection.Members

namespace Reflection

def Member.field? : Member → Option FieldDecl
  | .field decl => some decl
  | .method _ | .type _ => none

def Member.method? : Member → Option MethodDecl
  | .method decl => some decl
  | .field _ | .type _ => none

-- The functions in front of which there is none of the same name.
def firstNamed (decls : List MethodDecl) : List MethodDecl :=
  (decls.zipIdx.filter fun later =>
    (decls.take later.2).all fun earlier => earlier.name ≠ later.1.name).map (·.1)

theorem firstNamed_cons (decl : MethodDecl) (decls : List MethodDecl) :
    firstNamed (decl :: decls) =
      decl :: (firstNamed decls).filter fun other => decl.name ≠ other.name := by
  unfold firstNamed
  rw [List.zipIdx_cons, List.filter_cons_of_pos (by simp), List.map_cons, List.zipIdx_succ,
    List.filter_map, List.map_map, List.filter_map, List.filter_filter]
  rfl

theorem filter_firstNamed_cons (taken : List String) (decl : MethodDecl)
    (decls : List MethodDecl) :
    ((firstNamed (decl :: decls)).filter fun other => !taken.contains other.name) =
      if taken.contains decl.name then
        (firstNamed decls).filter fun other => !taken.contains other.name
      else decl :: (firstNamed decls).filter fun other =>
        !(decl.name :: taken).contains other.name := by
  rw [firstNamed_cons]
  by_cases htaken : taken.contains decl.name = true
  · rw [if_pos htaken, List.filter_cons_of_neg (by simpa using htaken), List.filter_filter]
    refine List.filter_congr fun other _ => ?_
    by_cases hname : decl.name = other.name
    · rw [← hname, htaken]
      rfl
    · simp [hname]
  · rw [if_neg htaken, List.filter_cons_of_pos (by simpa using htaken), List.filter_filter]
    refine congrArg (decl :: ·) (List.filter_congr fun other _ => ?_)
    simp [eq_comm, Bool.and_comm]

def fieldKind (isStatic : Bool) : MemberKind := if isStatic then .staticField else .field

namespace SelectionOptions

variable (options : SelectionOptions)

-- A member passes the filter if it is public and has a marker, as far as this is asked for.
def Passes (annotations : List AnnotationBlock) (access : Access) : Prop :=
  (options.publicOnly = true → access = .publicAccess) ∧
    (options.annotatedOnly = true → ∃ block ∈ annotations, block.isMarker = true)

instance (annotations : List AnnotationBlock) (access : Access) :
    Decidable (options.Passes annotations access) :=
  inferInstanceAs (Decidable (_ ∧ _))

def passingFields (isStatic : Bool) (members : List Member) : List FieldDecl :=
  (members.filterMap Member.field?).filter fun decl =>
    decl.isStatic = isStatic ∧ options.Passes decl.annotations decl.access

def passingMethods (members : List Member) : List MethodDecl :=
  (members.filterMap Member.method?).filter fun decl =>
    decl.kind = .regular ∧ options.Passes decl.annotations decl.access

-- Enumerators are as public as their enum.
def passingEnumerators (decls : List EnumeratorDecl) : List EnumeratorDecl :=
  decls.filter fun decl => options.Passes decl.annotations .publicAccess

-- A member with what its annotations contribute, one after the other.
def descriptor (kind : MemberKind) (name : String) (annotations : List AnnotationBlock) :
    MemberDescriptor :=
  ⟨name, kind, annotations.flatMap options.piecesOf⟩

def describedFields (isStatic : Bool) (members : List Member) : List MemberDescriptor :=
  (options.passingFields isStatic members).map fun decl =>
    options.descriptor (fieldKind isStatic) decl.name decl.annotations

def describedMethods (decls : List MethodDecl) : List MemberDescriptor :=
  decls.map fun decl => options.descriptor .method decl.name decl.annotations

-- The body with which a type is described.
def body : TypeDecl → TypeBody
  | .classType _ members =>
    .classBody (options.describedFields false members) (options.describedFields true members)
      (options.describedMethods (firstNamed (options.passingMethods members)))
  | .enumType decl =>
    .enumBody ((options.passingEnumerators decl.enumerators).map fun enumerator =>
      options.descriptor .enumerator enumerator.name enumerator.annotations)

end SelectionOptions

section Describing

variable {options : SelectionOptions} {owner : String}

theorem includes_iff {annotations : List AnnotationBlock} {access : Access} :
    options.includes annotations access = true ↔ options.Passes annotations access := by
  simp [SelectionOptions.includes, SelectionOptions.Passes, hasMarker, imp_iff_not_or]

theorem includes_eq_decide (annotations : List AnnotationBlock) (access : Access) :
    options.includes annotations access = decide (options.Passes annotations access) :=
  Bool.eq_iff_iff.mpr (includes_iff.trans decide_eq_true_iff.symm)

theorem describeMember_eq (name : String) (kind : MemberKind) (annotations : List AnnotationBlock) :
    (options.describeMember owner name kind annotations).1 =
      options.descriptor kind name annotations := by
  rw [SelectionOptions.describeMember, collect_eq_flatMap]
  rfl

theorem fieldKind_ne_method (isStatic : Bool) : fieldKind isStatic ≠ .method := by
  cases isStatic <;> nofun

theorem fieldKind_eq_iff {first second : Bool} :
    fieldKind first = fieldKind second ↔ first = second := by
  cases first <;> cases second <;> decide

-- Whatever names are taken, all fields that pass are described.
theorem describeMembers_fields (isStatic : Bool) (taken : List String) (members : List Member) :
    (options.describeMembers owner taken members).1.filter (·.kind = fieldKind isStatic) =
      options.describedFields isStatic members := by
  unfold SelectionOptions.describedFields SelectionOptions.passingFields
  induction members generalizing taken with
  | nil => rfl
  | cons member members ih =>
      cases member with
      | type entity => exact ih taken
      | field decl =>
          have hdecls : List.filterMap Member.field? (.field decl :: members) =
              decl :: members.filterMap Member.field? := rfl
          rw [SelectionOptions.describeMembers, hdecls]
          by_cases hpasses : options.Passes decl.annotations decl.access
          · rw [if_pos (includes_iff.mpr hpasses)]
            change List.filter _ (_ :: (options.describeMembers owner taken members).1) = _
            rw [describeMember_eq]
            by_cases hstatic : decl.isStatic = isStatic
            · subst hstatic
              rw [List.filter_cons_of_pos (by simp [SelectionOptions.descriptor, fieldKind]),
                List.filter_cons_of_pos (by simp [hpasses]), List.map_cons, ih taken]
              rfl
            · rw [List.filter_cons_of_neg, List.filter_cons_of_neg, ih taken]
              · exact fun h => hstatic (of_decide_eq_true h).1
              · exact fun h => hstatic (fieldKind_eq_iff.mp (of_decide_eq_true h))
          · rw [if_neg (mt includes_iff.mp hpasses), ih taken, List.filter_cons_of_neg]
            exact fun h => hpasses (of_decide_eq_true h).2
      | method decl =>
          have hdecls : List.filterMap Member.field? (.method decl :: members) =
              members.filterMap Member.field? := rfl
          rw [SelectionOptions.describeMembers, hdecls]
          split
          · split
            · exact ih taken
            · refine (List.filter_cons_of_neg fun h => ?_).trans (ih (decl.name :: taken))
              exact fieldKind_ne_method isStatic (of_decide_eq_true h).symm
          · exact ih taken

-- Of the functions that pass, the first of each name is described unless the name is taken.
theorem describeMembers_methods (taken : List String) (members : List Member) :
    (options.describeMembers owner taken members).1.filter (·.kind = .method) =
      options.describedMethods ((firstNamed (options.passingMethods members)).filter
        fun decl => !taken.contains decl.name) := by
  unfold SelectionOptions.describedMethods SelectionOptions.passingMethods
  induction members generalizing taken with
  | nil => rfl
  | cons member members ih =>
      cases member with
      | type entity => exact ih taken
      | field decl =>
          have hdecls : List.filterMap Member.method? (.field decl :: members) =
              members.filterMap Member.method? := rfl
          rw [SelectionOptions.describeMembers, hdecls]
          split
          · refine (List.filter_cons_of_neg fun h => ?_).trans (ih taken)
            exact fieldKind_ne_method decl.isStatic (of_decide_eq_true h)
          · exact ih taken
      | method decl =>
          have hdecls : List.filterMap Member.method? (.method decl :: members) =
              decl :: members.filterMap Member.method? := rfl
          rw [SelectionOptions.describeMembers, hdecls]
          by_cases hpasses : decl.kind = .regular ∧ options.Passes decl.annotations decl.access
          · have hincluded : (decl.kind = .regular &&
                options.includes decl.annotations decl.access) = true := by
              simpa [includes_iff] using hpasses
            rw [if_pos hincluded, List.filter_cons_of_pos (by simpa using hpasses),
              filter_firstNamed_cons]
            by_cases htaken : taken.contains decl.name = true
            · rw [if_pos htaken, if_pos htaken]
              exact ih taken
            · rw [if_neg htaken, if_neg htaken, List.map_cons, ← ih, ← describeMember_eq]
              exact List.filter_cons_of_pos (decide_eq_true rfl)
          · rw [if_neg, ih taken, List.filter_cons_of_neg]
            · exact fun h => hpasses (of_decide_eq_true h)
            · simpa [includes_iff] using hpasses

theorem describeBody_eq (decl : TypeDecl) :
    (options.describeBody owner decl).1 = options.body decl := by
  cases decl with
  | classType head members =>
      rw [SelectionOptions.describeBody, SelectionOptions.body]
      dsimp only
      rw [← @describeMembers_fields options owner false [],
        ← @describeMembers_fields options owner true [], describeMembers_methods]
      simp [fieldKind]
  | enumType decl =>
      rw [SelectionOptions.describeBody, SelectionOptions.describeEnumerators,
        SelectionOptions.body]
      simp only [includes_eq_decide]
      rw [List.map_map]
      refine congrArg TypeBody.enumBody (List.map_congr_left fun enumerator _ => ?_)
      exact describeMember_eq _ _ _

end Describing

-- What a selected type is described as.
def Occurrence.descriptor (options : SelectionOptions) (occurrence : Occurrence) :
    TypeDescriptor :=
  ⟨occurrence.qualifiedName, occurrence.pieces options, options.body occurrence.decl⟩

section Types

variable {options : SelectionOptions} {tree : DeclarationTree} {selected : Selected}

theorem description_type_eq_descriptor {occurrence : Occurrence} {type : TypeDescriptor}
    (h : (occurrence.description options).type = some type) :
    type = occurrence.descriptor options := by
  obtain ⟨-, rfl⟩ := describe_type h
  rw [collect_eq_flatMap, describeBody_eq]
  rfl

theorem described_descriptors (occurrences : List Occurrence) :
    (occurrences.map (·.description options)).filterMap (·.type) =
      (selectedAmong options occurrences).map (Occurrence.descriptor options) := by
  induction occurrences with
  | nil => rfl
  | cons occurrence occurrences ih =>
      unfold selectedAmong at ih ⊢
      rw [List.map_cons]
      cases htype : (occurrence.description options).type with
      | none => rw [List.filterMap_cons_none htype, List.filter_cons_of_neg (by simp [htype]), ih]
      | some type =>
          rw [List.filterMap_cons_some htype, List.filter_cons_of_pos (by simp [htype]),
            List.map_cons, ih, description_type_eq_descriptor htype]

-- A selection that succeeds describes each selected type with the members that pass the filter.
theorem select_descriptors (h : (tree.select options).outcome = .ok selected) :
    ∃ found : List Occurrence,
      found.Pairwise (fun first second => first.position < second.position) ∧
      (∀ occurrence, occurrence ∈ found ↔ tree.Holds occurrence ∧ occurrence.Selected options) ∧
      selected.types = found.map (Occurrence.descriptor options) := by
  refine ⟨selectedAmong options (occurrencesOf 0 tree.entities),
    (occurrencesOf_pairwise tree.entities).filter _, fun _ => mem_selectedAmong, ?_⟩
  rw [(select_eq_ok h).2, described_descriptors]

-- Only public members with a marker are asked for, and malformed annotations are kept.
def strictOptions : SelectionOptions := ⟨some defaultTypeMarker, true, true, .rawPiece⟩

def marked (text : String) : List AnnotationBlock := [⟨.attribute, text, ⟨0, 0⟩⟩]

-- Some members pass the filter, others are private, have no marker, or are no regular functions.
def mixedMembers : List Member :=
  [.field ⟨"x", false, .publicAccess, marked "min =", ⟨0, 0⟩⟩,
    .method ⟨"f", .regular, false, .privateAccess, marked "early", ⟨0, 0⟩⟩,
    .method ⟨"f", .regular, false, .publicAccess, marked "first", ⟨0, 0⟩⟩,
    .method ⟨"f", .regular, false, .publicAccess, marked "second", ⟨0, 0⟩⟩,
    .method ⟨"S", .constructor, false, .publicAccess, marked "made", ⟨0, 0⟩⟩,
    .field ⟨"n", true, .publicAccess, marked "shared" ++ marked "kept", ⟨0, 0⟩⟩,
    .field ⟨"y", false, .publicAccess, [], ⟨0, 0⟩⟩]

def mixedTree : DeclarationTree :=
  ⟨[.classDecl ⟨some "S", .structKey, true, false, marked "refl", ⟨0, 0⟩⟩ mixedMembers,
    .enumDecl ⟨some "E", false, true, marked "refl",
      [⟨"A", marked "a", ⟨0, 0⟩⟩, ⟨"B", [], ⟨0, 0⟩⟩], ⟨0, 0⟩⟩], ⟨0, 0⟩⟩

theorem select_descriptors_mixed :
    ∃ selected, (mixedTree.select strictOptions).outcome = .ok selected ∧
      ∃ found : List Occurrence,
        (∀ occurrence, occurrence ∈ found ↔
          mixedTree.Holds occurrence ∧ occurrence.Selected strictOptions) ∧
        selected.types = found.map (Occurrence.descriptor strictOptions) := by
  obtain ⟨selected, h⟩ := exists_ok_of_isSome
    (show (mixedTree.select strictOptions).outcome.toOption.isSome by decide +kernel)
  obtain ⟨found, -, hfound, htypes⟩ := select_descriptors h
  exact ⟨selected, h, found, hfound, htypes⟩

-- Of the overloads that pass the first stays, and the malformed annotation is one piece.
example : (strictOptions.passingMethods mixedMembers).map (·.annotations) =
      [marked "first", marked "second"] ∧
    (firstNamed (strictOptions.passingMethods mixedMembers)).map (·.annotations) =
      [marked "first"] ∧
    strictOptions.describedFields false mixedMembers =
      [⟨"x", .field, [⟨rawKey, "min ="⟩]⟩] := by
  decide +kernel

end Types

end Reflection
