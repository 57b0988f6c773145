import Reflection.Proofs.Selection.Bodies

namespace Reflection

-- One finding for each malformed annotation, in order.
def malformedAmong (target : String) (annotations : List AnnotationBlock) : List Finding :=
  annotations.filterMap fun block =>
    match block.pieces with
    | .ok _ => none
    | .error error => some (.malformedMetadata target error block.span)

namespace SelectionOptions

variable (options : SelectionOptions)

-- The names of the functions among these members that pass the filter.
def functionNames (members : List Member) : List String :=
  (options.passingMethods members).map (·.name)

-- What is found about a member of a class, with these members in front of it.
def memberFindings (owner : String) (earlier : List Member) : Member → List Finding
  | .field decl =>
    if options.Passes decl.annotations decl.access then
      malformedAmong (owner ++ "::" ++ decl.name) decl.annotations
    else []
  | .method decl =>
    if decl.kind = .regular ∧ options.Passes decl.annotations decl.access then
      if decl.name ∈ options.functionNames earlier then
        [.overloadSkipped owner decl.name decl.span]
      else malformedAmong (owner ++ "::" ++ decl.name) decl.annotations
    else []
  | .type _ => []

-- What is found about members that stand behind `earlier`, one after the other.
def membersFindings (owner : String) (earlier members : List Member) : List Finding :=
  (members.zipIdx earlier.length).flatMap fun later =>
    options.memberFindings owner ((earlier ++ members).take later.2) later.1

-- What is found about the members of a type, in the order of their declarations.
def bodyFindings (owner : String) : TypeDecl → List Finding
  | .classType _ members => options.membersFindings owner [] members
  | .enumType decl =>
    (options.passingEnumerators decl.enumerators).flatMap fun enumerator =>
      malformedAmong (owner ++ "::" ++ enumerator.name) enumerator.annotations

end SelectionOptions

-- What is found about a selected type: first its own annotations, then its members.
def Occurrence.findings (options : SelectionOptions) (occurrence : Occurrence) : List Finding :=
  malformedAmong occurrence.qualifiedName occurrence.decl.annotations ++
    options.bodyFindings occurrence.qualifiedName occurrence.decl

section Describing

variable {options : SelectionOptions} {owner : String}

theorem collect_findings (target : String) (annotations : List AnnotationBlock) :
    (options.collect target annotations).2 = malformedAmong target annotations := by
  unfold malformedAmong
  induction annotations with
  | nil => rfl
  | cons block annotations ih =>
      rw [SelectionOptions.collect, List.filterMap_cons]
      cases block.pieces with
      | ok pieces => exact ih
      | error error => exact congrArg (_ :: ·) ih

theorem describeMember_findings (name : String) (kind : MemberKind)
    (annotations : List AnnotationBlock) :
    (options.describeMember owner name kind annotations).2 =
      malformedAmong (owner ++ "::" ++ name) annotations :=
  collect_findings (owner ++ "::" ++ name) annotations

theorem membersFindings_cons (earlier : List Member) (member : Member) (members : List Member) :
    options.membersFindings owner earlier (member :: members) =
      options.memberFindings owner earlier member ++
        options.membersFindings owner (earlier ++ [member]) members := by
  have hsplit : earlier ++ member :: members = (earlier ++ [member]) ++ members := by simp
  unfold SelectionOptions.membersFindings
  rw [List.zipIdx_cons, List.flatMap_cons, List.take_left, hsplit, List.length_append,
    List.length_singleton]

theorem functionNames_append (earlier : List Member) (member : Member) :
    options.functionNames (earlier ++ [member]) =
      options.functionNames earlier ++ options.functionNames [member] := by
  simp [SelectionOptions.functionNames, SelectionOptions.passingMethods]

theorem functionNames_method (decl : MethodDecl) :
    options.functionNames [.method decl] =
      if decl.kind = .regular ∧ options.Passes decl.annotations decl.access then [decl.name]
      else [] := by
  have hdecls : List.filterMap Member.method? [.method decl] = [decl] := rfl
  unfold SelectionOptions.functionNames SelectionOptions.passingMethods
  rw [hdecls, List.filter_singleton]
  by_cases hpasses : decl.kind = .regular ∧ options.Passes decl.annotations decl.access
  · simp [hpasses]
  · rw [if_neg hpasses, decide_eq_false hpasses]
    rfl

-- By induction on the members: the names that are taken are those of the functions in front.
theorem describeMembers_findings (taken : List String) (earlier members : List Member)
    (htaken : ∀ name, name ∈ taken ↔ name ∈ options.functionNames earlier) :
    (options.describeMembers owner taken members).2 =
      options.membersFindings owner earlier members := by
  induction members generalizing taken earlier with
  | nil => rfl
  | cons member members ih =>
      rw [membersFindings_cons]
      cases member with
      | type entity =>
          have hnames : options.functionNames (earlier ++ [.type entity]) =
              options.functionNames earlier :=
            (functionNames_append earlier _).trans (List.append_nil _)
          exact ih taken _ fun name => by rw [hnames, htaken]
      | field decl =>
          have hnames : options.functionNames (earlier ++ [.field decl]) =
              options.functionNames earlier :=
            (functionNames_append earlier _).trans (List.append_nil _)
          have hothers := ih taken (earlier ++ [.field decl]) fun name => by rw [hnames, htaken]
          rw [SelectionOptions.describeMembers, SelectionOptions.memberFindings]
          by_cases hpasses : options.Passes decl.annotations decl.access
          · rw [if_pos (includes_iff.mpr hpasses), if_pos hpasses, ← hothers]
            exact congrArg (· ++ _) (describeMember_findings _ _ _)
          · rw [if_neg (mt includes_iff.mp hpasses), if_neg hpasses]
            exact hothers
      | method decl =>
          have hnames := @functionNames_append options earlier (.method decl)
          rw [functionNames_method] at hnames
          rw [SelectionOptions.describeMembers, SelectionOptions.memberFindings]
          by_cases hpasses : decl.kind = .regular ∧ options.Passes decl.annotations decl.access
          · have hincluded : (decl.kind = .regular &&
                options.includes decl.annotations decl.access) = true := by
              simpa [includes_iff] using hpasses
            rw [if_pos hpasses] at hnames
            rw [if_pos hincluded, if_pos hpasses]
            by_cases hname : decl.name ∈ options.functionNames earlier
            · have hothers := ih taken (earlier ++ [.method decl]) fun name => by
                rw [hnames, htaken, List.mem_append, List.mem_singleton]
                exact ⟨.inl, fun h => h.elim id fun heq => heq ▸ hname⟩
              rw [if_pos (by simpa using (htaken _).mpr hname), if_pos hname, ← hothers]
              rfl
            · have hothers := ih (decl.name :: taken) (earlier ++ [.method decl]) fun name => by
                rw [hnames, List.mem_cons, htaken, List.mem_append, List.mem_singleton, or_comm]
              rw [if_neg (by simpa using mt (htaken _).mp hname), if_neg hname, ← hothers]
              exact congrArg (· ++ _) (describeMember_findings _ _ _)
          · rw [if_neg hpasses] at hnames
            rw [if_neg (by simpa [includes_iff] using hpasses), if_neg hpasses]
            exact ih taken _ fun name => by rw [hnames, List.append_nil, htaken]

theorem describeBody_findings (decl : TypeDecl) :
    (options.describeBody owner decl).2 = options.bodyFindings owner decl := by
  cases decl with
  | classType head members =>
      exact describeMembers_findings [] [] members fun name => by simp [SelectionOptions.functionNames,
        SelectionOptions.passingMethods]
  | enumType decl =>
      rw [SelectionOptions.describeBody, SelectionOptions.describeEnumerators,
        SelectionOptions.bodyFindings, SelectionOptions.passingEnumerators]
      simp only [includes_eq_decide]
      rw [List.flatMap_map]
      exact List.flatMap_congr fun enumerator _ => describeMember_findings _ _ _

end Describing

section Selecting

variable {options : SelectionOptions} {tree : DeclarationTree} {selected : Selected}

-- Nothing is found about a type that is not selected, however malformed its annotations are.
theorem description_findings (occurrence : Occurrence) :
    (occurrence.description options).findings =
      if (occurrence.description options).type.isSome then occurrence.findings options else [] := by
  unfold Occurrence.description Candidate.describe
  dsimp only
  split
  · split
    · rw [collect_findings, describeBody_findings]
      rfl
    · rfl
  · rfl

theorem described_findings (occurrences : List Occurrence) :
    (occurrences.map (·.description options)).flatMap (·.findings) =
      (selectedAmong options occurrences).flatMap (Occurrence.findings options) := by
  unfold selectedAmong
  induction occurrences with
  | nil => rfl
  | cons occurrence occurrences ih =>
      rw [List.map_cons, List.flatMap_cons, description_findings, ih]
      by_cases hselected : (occurrence.description options).type.isSome
      · rw [if_pos hselected, List.filter_cons_of_pos (by simpa using hselected),
          List.flatMap_cons]
      · rw [if_neg hselected, List.filter_cons_of_neg (by simpa using hselected),
          List.nil_append]

-- The outcome in terms of the selected types alone.
theorem select_outcome_eq (tree : DeclarationTree) (options : SelectionOptions) :
    (tree.select options).outcome =
      let found := selectedAmong options (occurrencesOf 0 tree.entities)
      if (repetitions found).isEmpty then
        .ok ⟨found.map (Occurrence.descriptor options),
          found.flatMap (Occurrence.findings options)⟩
      else .error (repetitions found) := by
  rw [select_outcome]
  dsimp only
  rw [described_descriptors, described_findings]

-- A selection that succeeds finds, from top to bottom, just what is to be found about each selected
-- type.
theorem select_findings (h : (tree.select options).outcome = .ok selected) :
    ∃ found : List Occurrence,
      found.Pairwise (fun first second => first.position < second.position) ∧
      (∀ occurrence, occurrence ∈ found ↔ tree.Holds occurrence ∧ occurrence.Selected options) ∧
      selected.types.map (·.qualifiedName) = found.map Occurrence.qualifiedName ∧
      selected.findings = found.flatMap (Occurrence.findings options) := by
  rw [select_outcome_eq] at h
  dsimp only at h
  split at h
  · cases h
    refine ⟨selectedAmong options (occurrencesOf 0 tree.entities),
      (occurrencesOf_pairwise tree.entities).filter _, fun _ => mem_selectedAmong, ?_, rfl⟩
    rw [List.map_map]
    rfl
  · cases h

-- A selected type, with one nested in it that is not, and an overload; each with an annotation
-- that cannot be read.
def flawedTree : DeclarationTree :=
  let flawed (name : String) : Member :=
    .method ⟨name, .regular, false, .publicAccess, marked "min =", ⟨0, 0⟩⟩
  ⟨[.classDecl ⟨some "S", .structKey, true, false, marked "refl" ++ marked "(", ⟨0, 0⟩⟩
    [.type (.classDecl ⟨some "N", .structKey, true, false, marked "min =", ⟨0, 0⟩⟩
        [.field ⟨"x", false, .publicAccess, marked "min =", ⟨0, 0⟩⟩]),
      flawed "f", flawed "g", flawed "f"],
    .enumDecl ⟨some "E", false, true, marked "refl", [⟨"A", marked "min =", ⟨0, 0⟩⟩], ⟨0, 0⟩⟩],
    ⟨0, 0⟩⟩

theorem select_findings_flawed :
    ∃ selected, (flawedTree.select .default).outcome = .ok selected ∧
      ∃ found : List Occurrence,
        found.Pairwise (fun first second => first.position < second.position) ∧
        (∀ occurrence, occurrence ∈ found ↔
          flawedTree.Holds occurrence ∧ occurrence.Selected .default) ∧
        selected.types.map (·.qualifiedName) = found.map Occurrence.qualifiedName ∧
        selected.findings = found.flatMap (Occurrence.findings .default) := by
  obtain ⟨selected, h⟩ := exists_ok_of_isSome
    (show (flawedTree.select .default).outcome.toOption.isSome by decide +kernel)
  exact ⟨selected, h, select_findings h⟩

example : ((flawedTree.select .default).outcome.toOption.map fun selected =>
      selected.findings.map Finding.message) =
    some ["malformed metadata on S: malformed metadata at offset 0: " ++
        "expected metadata key, found '('",
      "malformed metadata on S::f: malformed metadata at offset 4: expected ',', found '='",
      "malformed metadata on S::g: malformed metadata at offset 4: expected ',', found '='",
      "overload of S::f skipped; only the first declaration is reflected",
      "malformed metadata on E::A: malformed metadata at offset 4: expected ',', found '='"] := by
  decide +kernel

end Selecting

end Reflection
