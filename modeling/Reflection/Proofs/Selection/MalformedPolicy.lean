import Reflection.Proofs.Selection.Findings

namespace Reflection

open Metadata (Piece)

section Annotations

mutual

-- All annotations of an entity and of what stands in it.
def Entity.allAnnotations : Entity → List AnnotationBlock
  | .namespaceDecl _ entities => allAnnotationsOf entities
  | .classDecl head members => head.annotations ++ allAnnotationsAmong members
  | .enumDecl decl => decl.annotations ++ decl.enumerators.flatMap EnumeratorDecl.annotations

def allAnnotationsOf : List Entity → List AnnotationBlock
  | [] => []
  | entity :: entities => entity.allAnnotations ++ allAnnotationsOf entities

def allAnnotationsAmong : List Member → List AnnotationBlock
  | [] => []
  | .field decl :: members => decl.annotations ++ allAnnotationsAmong members
  | .method decl :: members => decl.annotations ++ allAnnotationsAmong members
  | .type entity :: members => entity.allAnnotations ++ allAnnotationsAmong members

end

def DeclarationTree.allAnnotations (tree : DeclarationTree) : List AnnotationBlock :=
  allAnnotationsOf tree.entities

-- The annotations that count for the description of a type.
def TypeDecl.allAnnotations : TypeDecl → List AnnotationBlock
  | .classType head members =>
    head.annotations ++ (members.filterMap Member.field?).flatMap FieldDecl.annotations ++
      (members.filterMap Member.method?).flatMap MethodDecl.annotations
  | .enumType decl => decl.annotations ++ decl.enumerators.flatMap EnumeratorDecl.annotations

variable {block : AnnotationBlock}

theorem mem_allAnnotationsOf {entity : Entity} {entities : List Entity} (hmem : entity ∈ entities)
    (h : block ∈ entity.allAnnotations) : block ∈ allAnnotationsOf entities := by
  induction entities with
  | nil => cases hmem
  | cons first entities ih =>
      rw [allAnnotationsOf, List.mem_append]
      obtain rfl | hmem := List.mem_cons.mp hmem
      · exact .inl h
      · exact .inr (ih hmem)

theorem mem_allAnnotationsAmong {members : List Member} :
    block ∈ allAnnotationsAmong members ↔
      (∃ decl, .field decl ∈ members ∧ block ∈ decl.annotations) ∨
      (∃ decl, .method decl ∈ members ∧ block ∈ decl.annotations) ∨
      ∃ entity, .type entity ∈ members ∧ block ∈ entity.allAnnotations := by
  induction members with
  | nil => simp [allAnnotationsAmong]
  | cons member members ih =>
      cases member <;> simp [allAnnotationsAmong, ih, or_and_right, exists_or, or_assoc, or_left_comm]

theorem mem_field? {decl : FieldDecl} {members : List Member} :
    decl ∈ members.filterMap Member.field? ↔ .field decl ∈ members := by
  rw [List.mem_filterMap]
  constructor
  · rintro ⟨member, hmem, hfield⟩
    cases member with
    | field other =>
        cases hfield
        exact hmem
    | method _ | type _ => cases hfield
  · exact fun hmem => ⟨_, hmem, rfl⟩

theorem mem_method? {decl : MethodDecl} {members : List Member} :
    decl ∈ members.filterMap Member.method? ↔ .method decl ∈ members := by
  rw [List.mem_filterMap]
  constructor
  · rintro ⟨member, hmem, hmethod⟩
    cases member with
    | method other =>
        cases hmethod
        exact hmem
    | field _ | type _ => cases hmethod
  · exact fun hmem => ⟨_, hmem, rfl⟩

theorem Entity.Holds.allAnnotations {entity : Entity} {position : List Nat} {names : List String}
    {decl : TypeDecl} (h : entity.Holds position names decl) (hmem : block ∈ decl.allAnnotations) :
    block ∈ entity.allAnnotations := by
  induction h with
  | classType _ _ _ =>
      simp only [TypeDecl.allAnnotations, List.mem_append, List.mem_flatMap, mem_field?,
        mem_method?] at hmem
      rw [Entity.allAnnotations, List.mem_append, mem_allAnnotationsAmong]
      obtain (hhead | hfield) | hmethod := hmem
      · exact .inl hhead
      · exact .inr (.inl hfield)
      · exact .inr (.inr (.inl hmethod))
  | enumType _ _ =>
      rw [Entity.allAnnotations]
      exact hmem
  | inNamespace hentity _ ih =>
      rw [Entity.allAnnotations]
      exact mem_allAnnotationsOf (List.mem_of_getElem? hentity) (ih hmem)
  | inClass _ _ _ hmember _ ih =>
      rw [Entity.allAnnotations, List.mem_append, mem_allAnnotationsAmong]
      exact .inr (.inr (.inr ⟨_, List.mem_of_getElem? hmember, ih hmem⟩))

theorem DeclarationTree.Holds.allAnnotations {tree : DeclarationTree} {occurrence : Occurrence}
    (h : tree.Holds occurrence) (hmem : block ∈ occurrence.decl.allAnnotations) :
    block ∈ tree.allAnnotations := by
  obtain ⟨index, entity, position, hentity, -, hholds⟩ := h
  exact mem_allAnnotationsOf (List.mem_of_getElem? hentity) (hholds.allAnnotations hmem)

end Annotations

-- An annotation that can be read has no piece with this key.
def AnnotationBlock.Avoids (key : String) (block : AnnotationBlock) : Prop :=
  ∀ pieces, block.pieces = .ok pieces → ∀ piece ∈ pieces, piece.key ≠ key

instance (key : String) (block : AnnotationBlock) : Decidable (block.Avoids key) :=
  decidable_of_iff (∀ pieces ∈ block.pieces.toOption, ∀ piece ∈ pieces, piece.key ≠ key) <| by
    unfold AnnotationBlock.Avoids
    cases block.pieces <;> simp [Except.toOption]

def withoutKey (key : String) (pieces : List Piece) : List Piece := pieces.filter (·.key ≠ key)

-- The same members, with fewer pieces.
def MemberDescriptor.withoutKey (key : String) (member : MemberDescriptor) : MemberDescriptor :=
  { member with pieces := Reflection.withoutKey key member.pieces }

def TypeBody.withoutKey (key : String) : TypeBody → TypeBody
  | .classBody fields staticFields methods =>
    .classBody (fields.map (.withoutKey key)) (staticFields.map (.withoutKey key))
      (methods.map (.withoutKey key))
  | .enumBody enumerators => .enumBody (enumerators.map (.withoutKey key))

def TypeDescriptor.withoutKey (key : String) (type : TypeDescriptor) : TypeDescriptor :=
  { type with
    pieces := Reflection.withoutKey key type.pieces
    body := type.body.withoutKey key }

def Selected.withoutKey (key : String) (selected : Selected) : Selected :=
  { selected with types := selected.types.map (.withoutKey key) }

def SelectionOptions.under (options : SelectionOptions) (policy : MalformedPolicy) :
    SelectionOptions :=
  { options with malformed := policy }

section Policies

variable {options : SelectionOptions} {annotations : List AnnotationBlock}

theorem piecesOf_under {block : AnnotationBlock} (h : block.Avoids rawKey) :
    withoutKey rawKey ((options.under .rawPiece).piecesOf block) =
      (options.under .nothing).piecesOf block := by
  unfold withoutKey SelectionOptions.piecesOf SelectionOptions.under
  cases hpieces : block.pieces with
  | ok pieces => exact List.filter_eq_self.mpr fun piece hmem => decide_eq_true (h _ hpieces piece hmem)
  | error error => simp

theorem pieces_under (h : ∀ block ∈ annotations, block.Avoids rawKey) :
    withoutKey rawKey (annotations.flatMap (options.under .rawPiece).piecesOf) =
      annotations.flatMap (options.under .nothing).piecesOf := by
  rw [withoutKey, List.filter_flatMap]
  exact List.flatMap_congr fun block hmem => piecesOf_under (h block hmem)

theorem descriptor_under (kind : MemberKind) (name : String)
    (h : ∀ block ∈ annotations, block.Avoids rawKey) :
    ((options.under .rawPiece).descriptor kind name annotations).withoutKey rawKey =
      (options.under .nothing).descriptor kind name annotations := by
  unfold SelectionOptions.descriptor MemberDescriptor.withoutKey
  rw [pieces_under h]

theorem map_descriptor_under {α : Type} (kind : MemberKind) (name : α → String)
    {annotations : α → List AnnotationBlock} {decls : List α}
    (h : ∀ decl ∈ decls, ∀ block ∈ annotations decl, block.Avoids rawKey) :
    (decls.map fun decl => (options.under .rawPiece).descriptor kind (name decl)
        (annotations decl)).map (.withoutKey rawKey) =
      decls.map fun decl => (options.under .nothing).descriptor kind (name decl)
        (annotations decl) := by
  rw [List.map_map]
  exact List.map_congr_left fun decl hmem => descriptor_under kind (name decl) (h decl hmem)

theorem mem_of_mem_firstNamed {decl : MethodDecl} {decls : List MethodDecl}
    (h : decl ∈ firstNamed decls) : decl ∈ decls := by
  obtain ⟨⟨first, index⟩, hmem, rfl⟩ := List.mem_map.mp h
  exact List.fst_mem_of_mem_zipIdx (List.mem_of_mem_filter hmem)

-- The filter of the members does not look at the policy, so the same members are described.
theorem body_under {decl : TypeDecl} (h : ∀ block ∈ decl.allAnnotations, block.Avoids rawKey) :
    ((options.under .rawPiece).body decl).withoutKey rawKey =
      (options.under .nothing).body decl := by
  cases decl with
  | classType head members =>
      simp only [TypeDecl.allAnnotations, List.forall_mem_append, List.forall_mem_flatMap] at h
      obtain ⟨⟨-, hfields⟩, hmethods⟩ := h
      have hdescribed (isStatic : Bool) := @map_descriptor_under options _ (fieldKind isStatic)
        FieldDecl.name FieldDecl.annotations (options.passingFields isStatic members)
        fun decl hmem => hfields decl (List.mem_of_mem_filter hmem)
      have hfirst := @map_descriptor_under options _ .method MethodDecl.name
        MethodDecl.annotations (firstNamed (options.passingMethods members))
        fun decl hmem => hmethods decl (List.mem_of_mem_filter (mem_of_mem_firstNamed hmem))
      exact congr (congr (congrArg TypeBody.classBody (hdescribed false)) (hdescribed true)) hfirst
  | enumType decl =>
      simp only [TypeDecl.allAnnotations, List.forall_mem_append, List.forall_mem_flatMap] at h
      have hdescribed := @map_descriptor_under options _ .enumerator EnumeratorDecl.name
        EnumeratorDecl.annotations (options.passingEnumerators decl.enumerators)
        fun decl hmem => h.2 decl (List.mem_of_mem_filter hmem)
      exact congrArg TypeBody.enumBody hdescribed

end Policies

section Selecting

variable {options : SelectionOptions} {occurrence : Occurrence}

theorem mem_allAnnotations_of_mem {decl : TypeDecl} {block : AnnotationBlock}
    (h : block ∈ decl.annotations) : block ∈ decl.allAnnotations := by
  cases decl with
  | classType head members => exact List.mem_append_left _ (List.mem_append_left _ h)
  | enumType decl => exact List.mem_append_left _ h

theorem Occurrence.pieces_under
    (h : ∀ block ∈ occurrence.decl.allAnnotations, block.Avoids rawKey) :
    withoutKey rawKey (occurrence.pieces (options.under .rawPiece)) =
      occurrence.pieces (options.under .nothing) :=
  Reflection.pieces_under fun block hmem => h block (mem_allAnnotations_of_mem hmem)

theorem Occurrence.descriptor_under
    (h : ∀ block ∈ occurrence.decl.allAnnotations, block.Avoids rawKey) :
    (occurrence.descriptor (options.under .rawPiece)).withoutKey rawKey =
      occurrence.descriptor (options.under .nothing) := by
  unfold Occurrence.descriptor TypeDescriptor.withoutKey
  rw [Occurrence.pieces_under h, body_under h]

-- The added pieces have a key other than the marker that is asked for.
theorem Occurrence.selected_under (hmarker : options.typeMarker ≠ some rawKey)
    (h : ∀ block ∈ occurrence.decl.allAnnotations, block.Avoids rawKey) :
    occurrence.Selected (options.under .rawPiece) ↔
      occurrence.Selected (options.under .nothing) := by
  unfold Occurrence.Selected
  rw [← Occurrence.pieces_under h]
  refine and_congr_right fun _ => forall_congr' fun key => imp_congr_right fun hkey => ?_
  have hne : key ≠ rawKey := fun heq => hmarker (heq ▸ hkey)
  constructor
  · rintro ⟨piece, hmem, rfl⟩
    exact ⟨piece, List.mem_filter.mpr ⟨hmem, decide_eq_true hne⟩, rfl⟩
  · rintro ⟨piece, hmem, hpiece⟩
    exact ⟨piece, List.mem_of_mem_filter hmem, hpiece⟩

theorem selectedAmong_under {occurrences : List Occurrence}
    (hmarker : options.typeMarker ≠ some rawKey)
    (h : ∀ occurrence ∈ occurrences, ∀ block ∈ occurrence.decl.allAnnotations,
      block.Avoids rawKey) :
    selectedAmong (options.under .rawPiece) occurrences =
      selectedAmong (options.under .nothing) occurrences := by
  refine List.filter_congr fun occurrence hmem => Bool.eq_iff_iff.mpr ?_
  rw [description_type_isSome, description_type_isSome]
  exact occurrence.selected_under hmarker (h occurrence hmem)

-- To keep the text of malformed annotations only adds pieces with the key for it, if no annotation
-- that can be read has this key.
theorem select_under_policy (tree : DeclarationTree) (options : SelectionOptions)
    (hmarker : options.typeMarker ≠ some rawKey)
    (h : ∀ block ∈ tree.allAnnotations, block.Avoids rawKey) :
    (tree.select (options.under .nothing)).outcome =
      (tree.select (options.under .rawPiece)).outcome.map (Selected.withoutKey rawKey) := by
  have hall : ∀ occurrence ∈ occurrencesOf 0 tree.entities,
      ∀ block ∈ occurrence.decl.allAnnotations, block.Avoids rawKey :=
    fun occurrence hmem block hblock =>
      h block ((DeclarationTree.mem_occurrencesOf.mp hmem).allAnnotations hblock)
  rw [select_outcome_eq, select_outcome_eq, ← selectedAmong_under hmarker hall]
  dsimp only
  split
  · have htypes : ((selectedAmong (options.under .rawPiece) (occurrencesOf 0 tree.entities)).map
          (Occurrence.descriptor (options.under .rawPiece))).map (.withoutKey rawKey) =
        (selectedAmong (options.under .rawPiece) (occurrencesOf 0 tree.entities)).map
          (Occurrence.descriptor (options.under .nothing)) := by
      rw [List.map_map]
      exact List.map_congr_left fun occurrence hmem =>
        Occurrence.descriptor_under (hall occurrence (List.mem_of_mem_filter hmem))
    rw [← htypes]
    rfl
  · rfl

theorem select_under_policy_flawed :
    SelectionOptions.default.typeMarker ≠ some rawKey ∧
      (∀ block ∈ flawedTree.allAnnotations, block.Avoids rawKey) ∧
      (flawedTree.select (SelectionOptions.default.under .nothing)).outcome =
        (flawedTree.select (SelectionOptions.default.under .rawPiece)).outcome.map
          (Selected.withoutKey rawKey) := by
  have hmarker : SelectionOptions.default.typeMarker ≠ some rawKey := by decide
  have h : ∀ block ∈ flawedTree.allAnnotations, block.Avoids rawKey := by decide +kernel
  exact ⟨hmarker, h, select_under_policy flawedTree .default hmarker h⟩

example : ((flawedTree.select (SelectionOptions.default.under .rawPiece)).outcome.toOption.map
      fun selected => selected.types.map (·.pieces)) =
    some [[.marker "refl", ⟨rawKey, "("⟩], [.marker "refl"]] := by
  decide +kernel

end Selecting

end Reflection
