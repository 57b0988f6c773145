import Reflection.Proofs.Declaration.Records
import Reflection.Proofs.Selection.Occurrences
import Reflection.Source

namespace Reflection

open Json (Reading Record Fields WrittenFields writtenFields_nil writtenFields_cons)

mutual

def Entity.spans : Entity → List Span
  | .namespaceDecl head entities => head.span :: entitiesSpans entities
  | .classDecl head members =>
    head.span :: (head.annotations.map (·.span) ++ membersSpans members)
  | .enumDecl decl => decl.spans

def Member.spans : Member → List Span
  | .field decl => decl.spans
  | .method decl => decl.spans
  | .type entity => entity.spans

def entitiesSpans : List Entity → List Span
  | [] => []
  | entity :: entities => entity.spans ++ entitiesSpans entities

def membersSpans : List Member → List Span
  | [] => []
  | member :: members => member.spans ++ membersSpans members

end

def DeclarationTree.spans (tree : DeclarationTree) : List Span :=
  tree.span :: entitiesSpans tree.entities

theorem SpansFit.of_entity {entities : List Entity} (h : SpansFit (entitiesSpans entities))
    {entity : Entity} (hmem : entity ∈ entities) : SpansFit entity.spans := by
  have hall : entitiesSpans entities = entities.flatMap Entity.spans := by
    clear h hmem
    induction entities with
    | nil => rfl
    | cons entity entities ih => rw [entitiesSpans, ih, List.flatMap_cons]
  intro span hspan
  exact h span (hall ▸ List.mem_flatMap.mpr ⟨entity, hmem, hspan⟩)

theorem SpansFit.of_member {members : List Member} (h : SpansFit (membersSpans members))
    {member : Member} (hmem : member ∈ members) : SpansFit member.spans := by
  have hall : membersSpans members = members.flatMap Member.spans := by
    clear h hmem
    induction members with
    | nil => rfl
    | cons member members ih => rw [membersSpans, ih, List.flatMap_cons]
  intro span hspan
  exact h span (hall ▸ List.mem_flatMap.mpr ⟨member, hmem, hspan⟩)

theorem entitiesJson_eq_map (entities : List Entity) :
    entitiesJson entities = entities.map fun entity => .ofFields entity.toFields := by
  induction entities with
  | nil => rfl
  | cons entity entities ih => rw [entitiesJson, ih, List.map_cons]

theorem membersJson_eq_map (members : List Member) :
    membersJson members = members.map fun member => .ofFields member.toFields := by
  induction members with
  | nil => rfl
  | cons member members ih => rw [membersJson, ih, List.map_cons]

section Writing

theorem Member.written_toFields {member : Member}
    (hentity : ∀ entity, member = .type entity → SpansFit entity.spans →
      WrittenFields entity.toFields) (h : SpansFit member.spans) :
    WrittenFields member.toFields := by
  cases member with
  | field decl =>
      rw [Member.spans] at h
      rw [Member.toFields]
      exact writtenFields_cons (Json.written_ofString _) (FieldDecl.written_toFields h)
  | method decl =>
      rw [Member.spans] at h
      rw [Member.toFields]
      exact writtenFields_cons (Json.written_ofString _) (MethodDecl.written_toFields h)
  | type entity =>
      rw [Member.spans] at h
      rw [Member.toFields]
      exact writtenFields_cons (Json.written_ofString _) (hentity entity rfl h)

theorem Entity.written_toFields {entity : Entity} (h : SpansFit entity.spans) :
    WrittenFields entity.toFields := by
  induction entity using Entity.induct with
  | namespaceDecl head entities ih =>
      rw [Entity.spans] at h
      obtain ⟨hspan, hentities⟩ := List.forall_mem_cons.mp h
      have hinner : (Json.array (entitiesJson entities)).Written := by
        rw [entitiesJson_eq_map]
        exact Json.written_map fun entity hmem =>
          .object (ih entity hmem (SpansFit.of_entity hentities hmem))
      rw [Entity.toFields]
      exact writtenFields_cons (Json.written_ofString _) (writtenFields_cons
        (Json.written_ofOption _) (writtenFields_cons (.bool _) (writtenFields_cons hinner
          (writtenFields_cons (Span.written_toJson hspan) writtenFields_nil))))
  | classDecl head members ih =>
      rw [Entity.spans] at h
      obtain ⟨hspan, hmore⟩ := List.forall_mem_cons.mp h
      have hannotations : SpansFit (head.annotations.map (·.span)) := fun span hmem =>
        hmore span (List.mem_append_left _ hmem)
      have hmembers : SpansFit (membersSpans members) := fun span hmem =>
        hmore span (List.mem_append_right _ hmem)
      have hinner : (Json.array (membersJson members)).Written := by
        rw [membersJson_eq_map]
        refine Json.written_map fun member hmem => .object (Member.written_toFields ?_
          (hmembers.of_member hmem))
        rintro entity rfl
        exact ih entity hmem
      rw [Entity.toFields]
      exact writtenFields_cons (Json.written_ofString _) (writtenFields_cons
        (Json.written_ofOption _) (writtenFields_cons (Json.written_nameIn _ _)
          (writtenFields_cons (.bool _) (writtenFields_cons (.bool _) (writtenFields_cons
            (written_annotationsJson hannotations) (writtenFields_cons hinner
              (writtenFields_cons (Span.written_toJson hspan) writtenFields_nil)))))))
  | enumDecl decl =>
      rw [Entity.spans] at h
      rw [Entity.toFields]
      exact writtenFields_cons (Json.written_ofString _) (EnumDecl.written_toFields h)

end Writing

section Reading

-- What may stand in front of the fields of an entity: the tag of a nested type.
def IsLead (lead : Fields) : Prop := lead = [] ∨ lead = [("member", .ofString "type")]

theorem tags_entity {lead : Fields} (h : IsLead lead) (tag : String) :
    Tags (lead ++ [("entity", .ofString tag)]) := by
  obtain rfl | rfl := h
  · exact ⟨by simp, by simp, writtenFields_cons (Json.written_ofString _) writtenFields_nil⟩
  · exact ⟨by simp, by simp, writtenFields_cons (Json.written_ofString _)
      (writtenFields_cons (Json.written_ofString _) writtenFields_nil)⟩

theorem tags_member (tag : String) : Tags [("member", .ofString tag)] :=
  ⟨by simp, by simp, writtenFields_cons (Json.written_ofString _) writtenFields_nil⟩

-- The tag of an entity is read first, and all other fields only passed over or read unseen.
theorem read_entityTag {lead fields : Fields} {name : String} (tag : EntityTag)
    (hlead : IsLead lead) (hname : EntityTag.names.find? (·.1 == name) = some (name, tag))
    (hnames : ((lead ++ ("entity", .ofString name) :: fields).map (·.1)).Nodup)
    (hwritten : WrittenFields (lead ++ ("entity", .ofString name) :: fields))
    {budget : Nat} (hdepth : ∀ field ∈ lead ++ ("entity", .ofString name) :: fields,
      field.2.depth ≤ budget) (isBuffered : Bool) :
    (Record.required "entity" (Json.asTag isBuffered EntityTag.names)).ofFields
      (if isBuffered then Json.skip else Json.readable budget)
      (Json.spelled (lead ++ ("entity", .ofString name) :: fields)) = .ok tag := by
  refine Record.ofFields_spelled (Record.read_field ?_ (Json.asTag_ofString hname isBuffered))
    hnames fun field hmem => ?_
  · obtain rfl | rfl := hlead <;> rfl
  · cases isBuffered with
    | true => exact (hwritten field hmem).skip
    | false => exact (hwritten field hmem).readable (hdepth field hmem)

theorem read_memberTag {fields : Fields} {name : String} (tag : MemberTag)
    (hname : MemberTag.names.find? (·.1 == name) = some (name, tag))
    (hnames : ((("member", Json.ofString name) :: fields).map (·.1)).Nodup)
    (hwritten : WrittenFields (("member", .ofString name) :: fields)) :
    (Record.required "member" (Json.asTag true MemberTag.names)).ofFields Json.skip
      (Json.spelled (("member", .ofString name) :: fields)) = .ok tag :=
  Record.ofFields_spelled (Record.read_field rfl (Json.asTag_ofString hname true)) hnames
    fun field hmem => (hwritten field hmem).skip

theorem entityOfJson_ofFields (isBuffered : Bool) (budget : Nat) (fields : Fields) :
    entityOfJson isBuffered (budget + 1) (.ofFields fields) =
      entityOfFields isBuffered budget (Json.spelled fields) := by
  rw [entityOfJson]
  rfl

theorem entitiesOfJson_eq_asList {budget : Nat} (h : 0 < budget) (json : Json) :
    entitiesOfJson budget json = Json.asList budget (entityOfJson true (budget - 1)) json := by
  obtain ⟨bound, rfl⟩ := Nat.exists_eq_add_one.mpr h
  rw [entitiesOfJson]
  rfl

theorem membersOfJson_eq_asList {budget : Nat} (h : 0 < budget) (json : Json) :
    membersOfJson budget json = Json.asList budget (memberOfJson (budget - 1)) json := by
  obtain ⟨bound, rfl⟩ := Nat.exists_eq_add_one.mpr h
  rw [membersOfJson]
  rfl

-- The fields of an entity are read as the entity, whatever is left to be entered that is enough.
def IsReloaded (entity : Entity) : Prop :=
  ∀ lead isBuffered budget, IsLead lead → SpansFit entity.spans →
    (∀ field ∈ lead ++ entity.toFields, field.2.depth ≤ budget) →
    entityOfFields isBuffered budget (Json.spelled (lead ++ entity.toFields)) = .ok entity

theorem isReloaded_enumDecl (decl : EnumDecl) : IsReloaded (.enumDecl decl) := by
  intro lead isBuffered budget hlead hspans hdepth
  rw [Entity.spans] at hspans
  rw [Entity.toFields] at hdepth ⊢
  have hsplit : lead ++ ("entity", .ofString "enum") :: decl.toFields =
      (lead ++ [("entity", .ofString "enum")]) ++ decl.toFields := by simp
  have hspelling := EnumDecl.spelling (tags_entity hlead "enum") hspans (hsplit ▸ hdepth)
  rw [← hsplit] at hspelling
  have htag := read_entityTag .enumTag hlead rfl hspelling.names hspelling.written hdepth
    isBuffered
  rw [entityOfFields, htag]
  exact Spelling.ofFields ⟨Record.read_map _ hspelling.read, hspelling.names, hspelling.written⟩

theorem isReloaded_namespaceDecl {head : NamespaceHead} {entities : List Entity}
    (ih : ∀ entity ∈ entities, IsReloaded entity) :
    IsReloaded (.namespaceDecl head entities) := by
  intro lead isBuffered budget hlead hspans hdepth
  have hwritten := Entity.written_toFields hspans
  rw [Entity.spans] at hspans
  obtain ⟨hspan, hentities⟩ := List.forall_mem_cons.mp hspans
  rw [Entity.toFields] at hdepth hwritten ⊢
  have htags := tags_entity hlead "namespace"
  have hsplit (fields : Fields) : lead ++ ("entity", .ofString "namespace") :: fields =
      (lead ++ [("entity", .ofString "namespace")]) ++ fields := by simp
  have hspelling : Spelling (Entity.namespaceDecl <$> NamespaceHead.record budget
      <*> .optional "entities" [] (entitiesOfJson budget))
      (lead ++ ("entity", .ofString "namespace") :: [("name", .ofOption .ofString head.name),
        ("is_inline", .bool head.isInline), ("entities", .array (entitiesJson entities)),
        ("span", head.span.toJson)]) (.namespaceDecl head entities) := by
    rw [hsplit] at hdepth ⊢
    refine ⟨Record.read_seq (Record.read_map _ (Record.read_seq (Record.read_seq
      (Record.read_map _ ?_) ?_) ?_)) ?_, htags.names_append (by simp) (by simp),
        htags.written_append (List.forall_mem_cons.mp hwritten).2⟩
    · exact htags.read_field (by decide) rfl (Json.asOption_ofString head.name)
    · exact htags.read_field (by decide) rfl rfl
    · exact read_span (htags.find?_append (by decide) rfl) hspan hdepth
    · refine htags.read_field (by decide) rfl ?_
      have hle := hdepth ("entities", .array (entitiesJson entities)) (by simp)
      rw [entitiesOfJson_eq_asList (Nat.lt_of_lt_of_le (Json.depth_array_pos _) hle)]
      rw [entitiesJson_eq_map] at hle ⊢
      refine @Json.asList_objects _ _ (entityOfJson true) _ _ hle fun entity hmem bound hbound => ?_
      rw [entityOfJson_ofFields]
      exact ih entity hmem [] true bound (.inl rfl) (SpansFit.of_entity hentities hmem) hbound
  have htag := read_entityTag .namespaceTag hlead rfl hspelling.names hspelling.written
    hdepth isBuffered
  rw [entityOfFields, htag]
  exact hspelling.ofFields

-- What follows the tag of a member.
theorem memberOfJson_of_tag {fields : Fields} {tag : MemberTag} (budget : Nat) :
    (Record.required "member" (Json.asTag true MemberTag.names)).ofFields Json.skip
      (Json.spelled fields) = .ok tag →
    memberOfJson (budget + 1) (.ofFields fields) =
      match tag with
      | .fieldTag => (Member.field <$> FieldDecl.record budget).ofFields Json.skip
          (Json.spelled fields)
      | .methodTag => (Member.method <$> MethodDecl.record budget).ofFields Json.skip
          (Json.spelled fields)
      | .typeTag => (entityOfFields true budget (Json.spelled fields)).bind (.ok ∘ Member.type) := by
  intro htag
  rw [memberOfJson]
  change ((Record.required "member" (Json.asTag true MemberTag.names)).ofFields Json.skip
    (Json.spelled fields)).bind _ = _
  rw [htag]
  cases tag <;> rfl

theorem names_toFields (entity : Entity) :
    ((("member", Json.ofString "type") :: entity.toFields).map (·.1)).Nodup := by
  cases entity <;> simp [Entity.toFields, EnumDecl.toFields]

theorem memberOfJson_ofFields {member : Member}
    (hentity : ∀ entity, member = .type entity → IsReloaded entity)
    (h : SpansFit member.spans) {budget : Nat}
    (hdepth : ∀ field ∈ member.toFields, field.2.depth ≤ budget) :
    memberOfJson (budget + 1) (.ofFields member.toFields) = .ok member := by
  have hwritten := Member.written_toFields (fun entity _ => Entity.written_toFields) h
  cases member with
  | field decl =>
      rw [Member.spans] at h
      rw [Member.toFields] at hdepth ⊢
      have hspelling := FieldDecl.spelling (tags_member "field") h hdepth
      have htag := read_memberTag .fieldTag rfl hspelling.names hspelling.written
      refine (memberOfJson_of_tag budget htag).trans (Spelling.ofFields ?_)
      exact ⟨Record.read_map _ hspelling.read, hspelling.names, hspelling.written⟩
  | method decl =>
      rw [Member.spans] at h
      rw [Member.toFields] at hdepth ⊢
      have hspelling := MethodDecl.spelling (tags_member "method") h hdepth
      have htag := read_memberTag .methodTag rfl hspelling.names hspelling.written
      refine (memberOfJson_of_tag budget htag).trans (Spelling.ofFields ?_)
      exact ⟨Record.read_map _ hspelling.read, hspelling.names, hspelling.written⟩
  | type entity =>
      rw [Member.spans] at h
      rw [Member.toFields] at hdepth hwritten ⊢
      have htag := read_memberTag .typeTag rfl (names_toFields entity) hwritten
      have hreloaded := hentity entity rfl [("member", .ofString "type")] true budget (.inr rfl) h
        hdepth
      rw [memberOfJson_of_tag budget htag]
      change (entityOfFields true budget (Json.spelled (("member", .ofString "type") ::
        entity.toFields))).bind _ = _
      rw [List.singleton_append] at hreloaded
      rw [hreloaded]
      rfl

theorem isReloaded_classDecl {head : ClassHead} {members : List Member}
    (ih : ∀ entity, .type entity ∈ members → IsReloaded entity) :
    IsReloaded (.classDecl head members) := by
  intro lead isBuffered budget hlead hspans hdepth
  have hwritten := Entity.written_toFields hspans
  rw [Entity.spans] at hspans
  obtain ⟨hspan, hmore⟩ := List.forall_mem_cons.mp hspans
  have hannotations : SpansFit (head.annotations.map (·.span)) := fun span hmem =>
    hmore span (List.mem_append_left _ hmem)
  have hmembers : SpansFit (membersSpans members) := fun span hmem =>
    hmore span (List.mem_append_right _ hmem)
  rw [Entity.toFields] at hdepth hwritten ⊢
  have htags := tags_entity hlead "class"
  have hsplit (fields : Fields) : lead ++ ("entity", .ofString "class") :: fields =
      (lead ++ [("entity", .ofString "class")]) ++ fields := by simp
  have hspelling : Spelling (Entity.classDecl <$> ClassHead.record budget
      <*> .optional "members" [] (membersOfJson budget))
      (lead ++ ("entity", .ofString "class") :: [("name", .ofOption .ofString head.name),
        ("key", .nameIn ClassKey.names head.key), ("is_definition", .bool head.isDefinition),
        ("is_template", .bool head.isTemplate),
        ("annotations", annotationsJson head.annotations),
        ("members", .array (membersJson members)), ("span", head.span.toJson)])
      (.classDecl head members) := by
    rw [hsplit] at hdepth ⊢
    refine ⟨Record.read_seq (Record.read_map _ (Record.read_seq (Record.read_seq (Record.read_seq
      (Record.read_seq (Record.read_seq (Record.read_map _ ?_) ?_) ?_) ?_) ?_) ?_)) ?_,
        htags.names_append (by simp) (by simp),
        htags.written_append (List.forall_mem_cons.mp hwritten).2⟩
    · exact htags.read_field (by decide) rfl (Json.asOption_ofString head.name)
    · exact htags.read_field (by decide) rfl (ClassKey.asName_nameIn head.key)
    · exact htags.read_field (by decide) rfl rfl
    · exact htags.read_field (by decide) rfl rfl
    · exact read_annotations (htags.find?_append (by decide) rfl) hannotations hdepth
    · exact read_span (htags.find?_append (by decide) rfl) hspan hdepth
    · refine htags.read_field (by decide) rfl ?_
      have hle := hdepth ("members", .array (membersJson members)) (by simp)
      rw [membersOfJson_eq_asList (Nat.lt_of_lt_of_le (Json.depth_array_pos _) hle)]
      rw [membersJson_eq_map] at hle ⊢
      refine @Json.asList_objects _ _ memberOfJson _ _ hle fun member hmem bound hbound => ?_
      refine memberOfJson_ofFields ?_ (SpansFit.of_member hmembers hmem) hbound
      rintro entity rfl
      exact ih entity hmem
  have htag := read_entityTag .classTag hlead rfl hspelling.names hspelling.written
    hdepth isBuffered
  rw [entityOfFields, htag]
  exact hspelling.ofFields

theorem isReloaded (entity : Entity) : IsReloaded entity := by
  induction entity using Entity.induct with
  | namespaceDecl head entities ih => exact isReloaded_namespaceDecl ih
  | classDecl head members ih => exact isReloaded_classDecl ih
  | enumDecl decl => exact isReloaded_enumDecl decl

end Reading

namespace DeclarationTree

variable {tree : DeclarationTree}

def toFields (tree : DeclarationTree) : Fields :=
  [("entities", .array (entitiesJson tree.entities)), ("span", tree.span.toJson)]

theorem written_toFields (h : SpansFit tree.spans) : WrittenFields tree.toFields := by
  obtain ⟨hspan, hentities⟩ := List.forall_mem_cons.mp h
  refine writtenFields_cons ?_ (writtenFields_cons (Span.written_toJson hspan) writtenFields_nil)
  rw [entitiesJson_eq_map]
  exact Json.written_map fun entity hmem =>
    .object (Entity.written_toFields (SpansFit.of_entity hentities hmem))

theorem ofJson_toJson (h : SpansFit tree.spans) (hdepth : tree.toJson.depth ≤ Json.maxDepth) :
    ofJson tree.toJson = .ok tree := by
  obtain ⟨hspan, hentities⟩ := List.forall_mem_cons.mp h
  have hfields := Json.depth_ofFields_le.mp hdepth
  have hspelling : Spelling (record (Json.maxDepth - 1)) tree.toFields tree := by
    refine ⟨Record.read_seq (Record.read_map _ (Record.read_field rfl ?_))
      (read_span rfl hspan hfields), by simp [toFields], written_toFields h⟩
    have hle := hfields _ (.head _)
    rw [entitiesJson_eq_map] at hle ⊢
    refine @Json.asList_objects _ _ (entityOfJson false) _ _ hle fun entity hmem bound hbound => ?_
    rw [entityOfJson_ofFields]
    exact isReloaded entity [] false bound (.inl rfl) (SpansFit.of_entity hentities hmem) hbound
  exact hspelling.ofJson (by decide)

-- A tree that keeps to the limits comes back from its dump, whatever space stands behind it, and
-- the same types are selected.
theorem parse_toText (hspans : SpansFit tree.spans) (hdepth : tree.toJson.depth < 128)
    {spaces : List Char} (hspaces : ∀ c ∈ spaces, Json.isSpace c = true) (layout : Json.Layout) :
    parse (tree.toJson.toText layout ++ spaces) = .ok tree ∧
      (∀ path, Source.ofTree path (tree.toJson.toText layout ++ spaces) = .ok tree) ∧
      ∀ options, (parse (tree.toJson.toText layout ++ spaces)).map (·.select options) =
        .ok (tree.select options) := by
  have hparse : parse (tree.toJson.toText layout ++ spaces) = .ok tree := by
    have hwritten : tree.toJson.Written := .object (written_toFields hspans)
    rw [parse, Json.read_print hwritten layout hspaces]
    exact ofJson_toJson hspans (Nat.le_of_lt_succ hdepth)
  refine ⟨hparse, fun path => ?_, fun options => ?_⟩
  · rw [Source.ofTree, hparse]
    rfl
  · rw [hparse]
    rfl

-- A namespace without a name, and in it a template with a nested enum.
def nested : DeclarationTree where
  entities := [.namespaceDecl ⟨none, true, ⟨0, 90⟩⟩
    [.classDecl ⟨some "a::Müller", .unionKey, false, true,
        [⟨.docComment, "@refl \"\\ \x01\n😀", ⟨12, Json.maxNatural⟩⟩], ⟨12, 80⟩⟩
      [.field ⟨"x", true, .privateAccess, [], ⟨20, 30⟩⟩,
        .method ⟨"operator=", .operator, false, .protectedAccess,
          [⟨.attribute, "]", ⟨31, 36⟩⟩], ⟨31, 50⟩⟩,
        .type (.enumDecl ⟨none, false, true, [], [⟨"A", [], ⟨60, 61⟩⟩], ⟨55, 70⟩⟩)]]]
  span := ⟨0, 91⟩

theorem parse_toText_nested :
    SpansFit nested.spans ∧ nested.toJson.depth < 128 ∧ (∀ c ∈ ['\n'], Json.isSpace c = true) ∧
      parse (nested.toJson.toText .indented ++ ['\n']) = .ok nested :=
  have hspaces : ∀ c ∈ ['\n'], Json.isSpace c = true := List.all_eq_true.mp rfl
  ⟨by decide, by decide, hspaces, (parse_toText (by decide) (by decide) hspaces .indented).1⟩

end DeclarationTree

end Reflection
