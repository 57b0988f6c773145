import Mathlib.Data.List.Forall2
import Mathlib.Data.List.Nodup
import Reflection.Artifact.Cpp
import Reflection.Header.Scopes
import Reflection.Proofs.Outcomes
import Reflection.Proofs.Selection.Reference

namespace Reflection

namespace SelectionOptions

-- What a member is described as, if it passes the filter.
def entry? (options : SelectionOptions) : Member → Option (MemberKind × String)
  | .field decl =>
    if options.includes decl.annotations decl.access then
      some (if decl.isStatic then .staticField else .field, decl.name)
    else none
  | .method decl =>
    if decl.kind = .regular && options.includes decl.annotations decl.access then
      some (.method, decl.name)
    else none
  | .type _ => none

def entries (options : SelectionOptions) : TypeDecl → List (MemberKind × String)
  | .classType _ members => members.filterMap options.entry?
  | .enumType decl =>
    (decl.enumerators.filter fun enumerator =>
      options.includes enumerator.annotations .publicAccess).map fun enumerator =>
        (.enumerator, enumerator.name)

end SelectionOptions

-- The names that are given to a kind, as often as they are.
def namesAmong (kind : MemberKind) (entries : List (MemberKind × String)) : List String :=
  (entries.filter fun entry => entry.1 = kind).map (·.2)

def MemberDescriptor.entry (member : MemberDescriptor) : MemberKind × String :=
  (member.kind, member.name)

theorem namesAmong_entries (kind : MemberKind) (members : List MemberDescriptor) :
    namesAmong kind (members.map MemberDescriptor.entry) =
      (members.filter fun member => member.kind = kind).map (·.name) := by
  rw [namesAmong, List.filter_map, List.map_map]
  rfl

theorem namesAmong_cons (kind : MemberKind) (entry : MemberKind × String)
    (entries : List (MemberKind × String)) :
    namesAmong kind (entry :: entries) =
      if entry.1 = kind then entry.2 :: namesAmong kind entries else namesAmong kind entries := by
  by_cases h : entry.1 = kind <;> simp [namesAmong, h]

-- Of the methods of one name only the first stays, and none whose name is taken.
def keepFirst (taken : List String) : List (MemberKind × String) → List (MemberKind × String)
  | [] => []
  | (kind, name) :: entries =>
    if kind = .method then
      if taken.contains name then keepFirst taken entries
      else (kind, name) :: keepFirst (name :: taken) entries
    else (kind, name) :: keepFirst taken entries

theorem namesAmong_keepFirst {kind : MemberKind} (hkind : kind ≠ .method) (taken : List String)
    (entries : List (MemberKind × String)) :
    namesAmong kind (keepFirst taken entries) = namesAmong kind entries := by
  induction entries generalizing taken with
  | nil => rfl
  | cons entry entries ih =>
      obtain ⟨other, name⟩ := entry
      rw [keepFirst, namesAmong_cons]
      by_cases hmethod : other = .method
      · have hother : ¬other = kind := fun h => hkind (h.symm.trans hmethod)
        rw [if_pos hmethod, if_neg hother]
        split
        · exact ih taken
        · rw [namesAmong_cons, if_neg hother]
          exact ih _
      · rw [if_neg hmethod, namesAmong_cons, ih]

theorem methods_keepFirst (taken : List String) (entries : List (MemberKind × String)) :
    namesAmong .method (keepFirst taken entries) =
      ((namesAmong .method entries).filter fun name => !taken.contains name).eraseDups := by
  induction entries generalizing taken with
  | nil => rfl
  | cons entry entries ih =>
      obtain ⟨kind, name⟩ := entry
      rw [keepFirst, namesAmong_cons]
      by_cases hmethod : kind = .method
      · rw [if_pos hmethod, if_pos hmethod]
        by_cases htaken : taken.contains name = true
        · rw [if_pos htaken, List.filter_cons_of_neg (by simpa using htaken)]
          exact ih taken
        · rw [if_neg htaken, List.filter_cons_of_pos (by simpa using htaken), List.eraseDups_cons,
            List.filter_filter, namesAmong_cons, if_pos hmethod, ih]
          refine congrArg (name :: List.eraseDups ·) (List.filter_congr fun other _ => ?_)
          rw [List.contains_cons, Bool.not_or]
      · rw [if_neg hmethod, if_neg hmethod, namesAmong_cons, if_neg hmethod]
        exact ih taken

theorem nodup_eraseDups (names : List String) : names.eraseDups.Nodup := by
  induction hlength : names.length using Nat.strongRecOn generalizing names with
  | ind length ih =>
      cases names with
      | nil => simp
      | cons name names =>
          rw [List.eraseDups_cons, List.nodup_cons, List.mem_eraseDups, List.mem_filter]
          have hle := List.length_filter_le (fun other => !other == name) names
          rw [List.length_cons] at hlength
          exact ⟨by simp, ih _ (by omega) _ rfl⟩

section Describing

variable {options : SelectionOptions} {owner : String}

theorem entry_describeMember (name : String) (kind : MemberKind)
    (annotations : List AnnotationBlock) :
    (options.describeMember owner name kind annotations).1.entry = (kind, name) := rfl

-- The members of a class are described under what they are declared as.
theorem describeMembers_entries (taken : List String) (members : List Member) :
    (options.describeMembers owner taken members).1.map MemberDescriptor.entry =
      keepFirst taken (members.filterMap options.entry?) := by
  induction members generalizing taken with
  | nil => rfl
  | cons member members ih =>
      cases member with
      | type entity => exact ih taken
      | field decl =>
          have hkind : ¬(if decl.isStatic then MemberKind.staticField else .field) = .method := by
            split <;> simp
          rw [SelectionOptions.describeMembers, List.filterMap_cons, SelectionOptions.entry?]
          dsimp only
          by_cases hincluded : options.includes decl.annotations decl.access = true
          · rw [if_pos hincluded, if_pos hincluded]
            dsimp only
            rw [List.map_cons, entry_describeMember, keepFirst, if_neg hkind, ih]
          · rw [if_neg hincluded, if_neg hincluded]
            exact ih taken
      | method decl =>
          rw [SelectionOptions.describeMembers, List.filterMap_cons, SelectionOptions.entry?]
          by_cases hincluded : (decl.kind = .regular &&
              options.includes decl.annotations decl.access) = true
          · rw [if_pos hincluded, if_pos hincluded]
            dsimp only
            rw [keepFirst, if_pos rfl]
            by_cases htaken : taken.contains decl.name = true
            · rw [if_pos htaken, if_pos htaken]
              exact ih taken
            · rw [if_neg htaken, if_neg htaken]
              dsimp only
              rw [List.map_cons, entry_describeMember, ih]
          · rw [if_neg hincluded, if_neg hincluded]
            exact ih taken

-- The names that a kind is declared with, of those that pass the filter.
def SelectionOptions.declaredNames (options : SelectionOptions) (kind : MemberKind)
    (decl : TypeDecl) : List String :=
  namesAmong kind (options.entries decl)

theorem describeEnumerators_names (enumerators : List EnumeratorDecl) :
    (options.describeEnumerators owner enumerators).1.map (·.name) =
      (enumerators.filter fun enumerator =>
        options.includes enumerator.annotations .publicAccess).map (·.name) := by
  rw [SelectionOptions.describeEnumerators]
  simp only [List.map_map]
  rfl

theorem declaredNames_enum (kind : MemberKind) (decl : EnumDecl) :
    options.declaredNames kind (.enumType decl) =
      if kind = .enumerator then
        (decl.enumerators.filter fun enumerator =>
          options.includes enumerator.annotations .publicAccess).map (·.name)
      else [] := by
  rw [SelectionOptions.declaredNames, SelectionOptions.entries, namesAmong, List.filter_map,
    List.map_map]
  by_cases hkind : kind = .enumerator
  · subst hkind
    simp [Function.comp_def]
  · simp [Function.comp_def, hkind, Ne.symm hkind]

theorem declaredNames_class_enumerator (head : ClassHead) (members : List Member) :
    options.declaredNames .enumerator (.classType head members) = [] := by
  rw [SelectionOptions.declaredNames, SelectionOptions.entries, namesAmong, List.map_eq_nil_iff,
    List.filter_eq_nil_iff]
  intro entry hentry
  obtain ⟨member, -, hmember⟩ := List.mem_filterMap.mp hentry
  cases member with
  | type entity => cases hmember
  | field decl =>
      rw [SelectionOptions.entry?] at hmember
      split at hmember
      · cases hmember
        cases decl.isStatic <;> simp
      · cases hmember
  | method decl =>
      rw [SelectionOptions.entry?] at hmember
      split at hmember
      · cases hmember
        simp
      · cases hmember

theorem describeMembers_names (head : ClassHead) (members : List Member) (kind : MemberKind) :
    ((options.describeMembers owner [] members).1.filter fun member =>
        member.kind = kind).map (·.name) =
      if kind = .method then (options.declaredNames kind (.classType head members)).eraseDups
      else options.declaredNames kind (.classType head members) := by
  rw [← namesAmong_entries, describeMembers_entries]
  by_cases hkind : kind = .method
  · subst hkind
    rw [if_pos rfl, methods_keepFirst]
    simp only [List.contains_nil, Bool.not_false, List.filter_true]
    rfl
  · rw [if_neg hkind, namesAmong_keepFirst hkind]
    rfl

-- The members of a described type, by the kinds under which they stand.
theorem describeBody_names (decl : TypeDecl) (kind : MemberKind) :
    (((options.describeBody owner decl).1.members? kind).getD []).map (·.name) =
      if kind = .method then (options.declaredNames kind decl).eraseDups
      else options.declaredNames kind decl := by
  cases decl with
  | classType head members =>
      cases kind with
      | field | staticField | method => exact describeMembers_names head members _
      | enumerator => exact (declaredNames_class_enumerator head members).symm
  | enumType decl =>
      rw [declaredNames_enum]
      cases kind with
      | enumerator => exact describeEnumerators_names decl.enumerators
      | field | staticField | method => rfl

end Describing

section Types

variable {options : SelectionOptions} {tree : DeclarationTree} {selected : Selected}

theorem description_names {occurrence : Occurrence} {type : TypeDescriptor}
    (h : (occurrence.description options).type = some type) (kind : MemberKind) :
    (type.members kind).map (·.name) =
      if kind = .method then (options.declaredNames kind occurrence.decl).eraseDups
      else options.declaredNames kind occurrence.decl := by
  unfold Occurrence.description Candidate.describe at h
  dsimp only at h
  split at h
  · split at h
    · cases h
      exact describeBody_names occurrence.decl kind
    · cases h
  · cases h

theorem select_eq_ok (h : (tree.select options).outcome = .ok selected) :
    ((selectedAmong options (occurrencesOf 0 tree.entities)).map Occurrence.qualifiedName).Nodup ∧
      selected.types =
        ((occurrencesOf 0 tree.entities).map (·.description options)).filterMap (·.type) := by
  rw [select_outcome] at h
  dsimp only at h
  split at h
  · next hnone =>
    cases h
    exact ⟨repetitions_eq_nil.mp (List.isEmpty_iff.mp hnone), rfl⟩
  · cases h

theorem qualifiedNames_nodup (h : (tree.select options).outcome = .ok selected) :
    (selected.types.map (·.qualifiedName)).Nodup := by
  obtain ⟨hnodup, htypes⟩ := select_eq_ok h
  have hpairs := congrArg (List.map Prod.fst)
    (@described_types options (occurrencesOf 0 tree.entities))
  rw [← htypes, List.map_map, List.map_map] at hpairs
  exact hpairs ▸ hnodup

-- The described types are those of the types that are selected.
theorem mem_types_iff (h : (tree.select options).outcome = .ok selected) {type : TypeDescriptor} :
    type ∈ selected.types ↔
      ∃ occurrence, tree.Holds occurrence ∧ (occurrence.description options).type = some type := by
  rw [(select_eq_ok h).2, List.mem_filterMap]
  simp only [List.mem_map, DeclarationTree.mem_occurrencesOf]
  constructor
  · rintro ⟨_, ⟨occurrence, hholds, rfl⟩, htype⟩
    exact ⟨occurrence, hholds, htype⟩
  · rintro ⟨occurrence, hholds, htype⟩
    exact ⟨_, ⟨occurrence, hholds, rfl⟩, htype⟩

end Types

-- No two members of one kind have the same name.
def TypeDescriptor.HasDistinctMembers (type : TypeDescriptor) : Prop :=
  ∀ kind, ((type.members kind).map (·.name)).Nodup

instance (type : TypeDescriptor) : Decidable type.HasDistinctMembers :=
  decidable_of_iff (∀ kind ∈ [MemberKind.field, .staticField, .method, .enumerator],
    ((type.members kind).map (·.name)).Nodup)
    ⟨fun h kind => h kind (by cases kind <;> decide), fun h kind _ => h kind⟩

namespace Cpp

-- The arrays of metadata that are defined for the members of one kind.
def Accessor.arrays (accessor : Accessor) : List (String × List Metadata.Piece) :=
  accessor.members.map fun member => (member.name ++ "_meta", member.pieces)

theorem memberArrays_eq (accessor : Accessor) :
    memberArrays accessor =
      accessor.arrays.flatMap fun array => line 0 "" :: metadataArray array.1 array.2 := by
  rw [Accessor.arrays, List.flatMap_map]
  rfl

theorem arrays_nodup (accessor : Accessor) :
    (accessor.arrays.map (·.1)).Nodup ↔ (accessor.members.map (·.name)).Nodup := by
  have hinjective : Function.Injective fun name : String => name ++ "_meta" := fun first second =>
    (String.append_left_inj "_meta").mp
  have hnames : accessor.arrays.map (·.1) =
      (accessor.members.map (·.name)).map fun name => name ++ "_meta" := by
    rw [Accessor.arrays, List.map_map, List.map_map]
    rfl
  rw [hnames, List.nodup_map_iff hinjective]

-- No array is defined twice for the members of one kind if and only if their names differ.
theorem arrays_nodup_iff (options : CppOptions) (type : TypeDescriptor) :
    (∀ accessor ∈ accessors options type.body, (accessor.arrays.map (·.1)).Nodup) ↔
      type.HasDistinctMembers := by
  simp only [arrays_nodup, TypeDescriptor.HasDistinctMembers, TypeDescriptor.members]
  cases type.body with
  | classBody fields statics methods =>
      simp only [accessors, List.forall_mem_cons]
      constructor
      · rintro ⟨hfields, hstatics, hmethods, -⟩ kind
        cases kind with
        | field => exact hfields
        | staticField => exact hstatics
        | method => exact hmethods
        | enumerator => exact .nil
      · exact fun h => ⟨h .field, h .staticField, h .method, List.forall_mem_nil _⟩
  | enumBody enumerators =>
      simp only [accessors, List.forall_mem_singleton]
      constructor
      · intro henumerators kind
        cases kind with
        | enumerator => exact henumerators
        | field | staticField | method => exact .nil
      · exact fun h => h .enumerator

end Cpp

section Distinct

variable {options : SelectionOptions} {tree : DeclarationTree} {selected : Selected}

-- The methods of a described type always have different names. All its members of one kind have
-- them, and so have the arrays that are written for them, just if the others are declared under
-- different names.
theorem distinctMembers_iff (h : (tree.select options).outcome = .ok selected)
    (cpp : CppOptions) :
    (∀ type ∈ selected.types, ((type.members .method).map (·.name)).Nodup) ∧
    ((∀ type ∈ selected.types, type.HasDistinctMembers) ↔
      ∀ occurrence, tree.Holds occurrence → occurrence.Selected options →
        ∀ kind, kind ≠ .method → (options.declaredNames kind occurrence.decl).Nodup) ∧
    (∀ type ∈ selected.types, type.HasDistinctMembers ↔
      ∀ accessor ∈ Cpp.accessors cpp type.body, (accessor.arrays.map (·.1)).Nodup) ∧
    ∀ accessor : Cpp.Accessor, Cpp.memberArrays accessor =
      accessor.arrays.flatMap fun array =>
        Cpp.line 0 "" :: Cpp.metadataArray array.1 array.2 := by
  have hmethods : ∀ type ∈ selected.types, ((type.members .method).map (·.name)).Nodup := by
    intro type hmem
    obtain ⟨occurrence, -, htype⟩ := (mem_types_iff h).mp hmem
    rw [description_names htype, if_pos rfl]
    exact nodup_eraseDups _
  refine ⟨hmethods, ⟨fun hdistinct occurrence hholds hselected kind hkind => ?_,
    fun hdeclared type hmem kind => ?_⟩, fun type _ => (Cpp.arrays_nodup_iff cpp type).symm,
    Cpp.memberArrays_eq⟩
  · obtain ⟨type, htype⟩ := Option.isSome_iff_exists.mp (description_type_isSome.mpr hselected)
    have hnames := hdistinct type ((mem_types_iff h).mpr ⟨occurrence, hholds, htype⟩) kind
    rwa [description_names htype, if_neg hkind] at hnames
  · by_cases hkind : kind = .method
    · exact hkind ▸ hmethods type hmem
    · obtain ⟨occurrence, hholds, htype⟩ := (mem_types_iff h).mp hmem
      have hselected := description_type_isSome.mp (Option.isSome_iff_exists.mpr ⟨type, htype⟩)
      rw [description_names htype, if_neg hkind]
      exact hdeclared occurrence hholds hselected kind hkind

-- A function that is declared twice, and a field.
def overloaded : DeclarationTree :=
  let method := Member.method ⟨"f", .regular, false, .publicAccess, [], ⟨0, 0⟩⟩
  ⟨[.classDecl ⟨some "S", .structKey, true, false, [⟨.attribute, "refl", ⟨0, 0⟩⟩], ⟨0, 0⟩⟩
    [method, .field ⟨"x", false, .publicAccess, [], ⟨0, 0⟩⟩, method]], ⟨0, 0⟩⟩

theorem distinctMembers_overloaded :
    ∃ selected, (overloaded.select .default).outcome = .ok selected ∧
      ∀ type ∈ selected.types, type.HasDistinctMembers := by
  obtain ⟨selected, h⟩ := exists_ok_of_isSome
    (show (overloaded.select .default).outcome.toOption.isSome by decide +kernel)
  refine ⟨selected, h, (distinctMembers_iff h .default).2.1.mpr
    fun occurrence hholds _ kind hkind => ?_⟩
  rw [← DeclarationTree.mem_occurrencesOf] at hholds
  obtain rfl := List.mem_singleton.mp hholds
  cases kind with
  | method => exact absurd rfl hkind
  | field | staticField | enumerator => decide +kernel

-- A field that both branches of a directive declare.
def branchedHeader : List Char :=
  "struct [[refl]] S \x7b\n#ifdef WIDE\n  long x;\n#else\n  int x;\n#endif\n\x7d;".toList

-- The directives are passed over and both declarations stay: the type gets two fields of one name.
theorem not_hasDistinctMembers_branched :
    ∃ parsed selected, Header.parse .tolerant branchedHeader = .ok parsed ∧
      (parsed.tree.select .default).outcome = .ok selected ∧
      ¬∀ type ∈ selected.types, type.HasDistinctMembers := by
  have hrepeated : (Header.parse .tolerant branchedHeader).toOption.bind (fun parsed =>
      (parsed.tree.select .default).outcome.toOption.map fun selected =>
        decide (∀ type ∈ selected.types, type.HasDistinctMembers)) = some false := by
    decide +kernel
  cases hparsed : Header.parse .tolerant branchedHeader with
  | error error => rw [hparsed] at hrepeated; cases hrepeated
  | ok parsed =>
      rw [hparsed] at hrepeated
      cases hselected : (parsed.tree.select .default).outcome with
      | error findings => simp [Except.toOption, hselected] at hrepeated
      | ok selected =>
          refine ⟨parsed, selected, rfl, hselected, ?_⟩
          simpa only [Except.toOption, hselected, Option.bind_some, Option.map_some,
            Option.some.injEq, decide_eq_false_iff_not] using hrepeated

end Distinct

end Reflection
