import Reflection.Descriptor.Json
import Reflection.Proofs.Declaration.Records

namespace Reflection

open Json (Reading Record Fields WrittenFields writtenFields_nil writtenFields_cons)
open Metadata (Piece)

namespace Json

-- What plain data is written as, with only so many containers in one another.
def Shallow (bound : Nat) (json : Json) : Prop := json.Written ∧ json.depth ≤ bound

variable {bound : Nat}

theorem shallow_ofString (text : String) : Shallow bound (ofString text) :=
  ⟨written_ofString text, Nat.zero_le bound⟩

theorem shallow_map {α : Type} {write : α → Json} {values : List α}
    (h : ∀ value ∈ values, Shallow bound (write value)) :
    Shallow (bound + 1) (.array (values.map write)) := by
  refine ⟨written_map fun value hmem => (h value hmem).1, depth_array_le.mpr fun item hmem => ?_⟩
  obtain ⟨value, hvalue, rfl⟩ := List.mem_map.mp hmem
  exact (h value hvalue).2

theorem shallow_ofFields {fields : List (String × Json)}
    (h : ∀ field ∈ fields, Shallow bound field.2) : Shallow (bound + 1) (ofFields fields) :=
  ⟨.object fun field hmem => (h field hmem).1,
    depth_ofFields_le.mpr fun field hmem => (h field hmem).2⟩

end Json

open Json (Shallow shallow_ofString shallow_map shallow_ofFields)

section Writing

theorem shallow_piecesJson (pieces : List Piece) : Shallow 2 (piecesJson pieces) := by
  refine shallow_map fun piece _ => shallow_ofFields fun field hmem => ?_
  simp only [List.mem_cons, List.not_mem_nil, or_false] at hmem
  obtain rfl | rfl := hmem <;> exact shallow_ofString _

namespace MemberDescriptor

def toFields (member : MemberDescriptor) : Fields :=
  [("name", .ofString member.name), ("kind", .nameIn MemberKind.names member.kind),
    ("meta", piecesJson member.pieces)]

theorem shallow_toFields (member : MemberDescriptor) :
    ∀ field ∈ member.toFields, Shallow 2 field.2 := by
  intro field hmem
  simp only [toFields, List.mem_cons, List.not_mem_nil, or_false] at hmem
  obtain rfl | rfl | rfl := hmem
  · exact shallow_ofString _
  · exact shallow_ofString _
  · exact shallow_piecesJson member.pieces

theorem shallow_toJson (member : MemberDescriptor) : Shallow 3 member.toJson :=
  shallow_ofFields member.shallow_toFields

end MemberDescriptor

namespace TypeBody

theorem shallow_membersField (name : String) (members : List MemberDescriptor) :
    ∀ field ∈ membersField name members, Shallow 4 field.2 := by
  intro field hmem
  unfold membersField at hmem
  split at hmem
  · cases hmem
  · rw [List.mem_singleton.mp hmem]
    exact shallow_map fun member _ => member.shallow_toJson

theorem shallow_toFields (body : TypeBody) : ∀ field ∈ body.toFields, Shallow 4 field.2 := by
  intro field hmem
  cases body with
  | classBody fields staticFields methods =>
      simp only [toFields, List.cons_append, List.mem_cons, List.mem_append] at hmem
      obtain rfl | (hmem | hmem) | hmem := hmem
      · exact shallow_ofString _
      · exact shallow_membersField _ _ field hmem
      · exact shallow_membersField _ _ field hmem
      · exact shallow_membersField _ _ field hmem
  | enumBody enumerators =>
      obtain rfl | hmem := List.mem_cons.mp hmem
      · exact shallow_ofString _
      · exact shallow_membersField _ _ field hmem

end TypeBody

namespace TypeDescriptor

def toFields (type : TypeDescriptor) : Fields :=
  ("qualified_name", .ofString type.qualifiedName) :: ("meta", piecesJson type.pieces) ::
    type.body.toFields

theorem shallow_toFields (type : TypeDescriptor) : ∀ field ∈ type.toFields, Shallow 4 field.2 := by
  intro field hmem
  obtain rfl | rfl | hmem : field = _ ∨ field = _ ∨ field ∈ type.body.toFields := by
    simpa only [toFields, List.mem_cons] using hmem
  · exact shallow_ofString _
  · exact ⟨(shallow_piecesJson type.pieces).1, (shallow_piecesJson type.pieces).2.trans (by decide)⟩
  · exact type.body.shallow_toFields field hmem

theorem shallow_toJson (type : TypeDescriptor) : Shallow 5 type.toJson :=
  shallow_ofFields type.shallow_toFields

end TypeDescriptor

namespace Artifact

def toFields (artifact : Artifact) : Fields :=
  ("source", .ofString artifact.source) :: artifact.hashField ++
    [("types", .array (artifact.types.map TypeDescriptor.toJson))]

theorem shallow_toFields (artifact : Artifact) :
    ∀ field ∈ artifact.toFields, Shallow 6 field.2 := by
  intro field hmem
  have htypes : Shallow 6 (.array (artifact.types.map TypeDescriptor.toJson)) :=
    shallow_map fun type _ => type.shallow_toJson
  cases hhash : artifact.sourceHash with
  | none =>
      simp only [toFields, hashField, hhash, List.cons_append, List.nil_append, List.mem_cons,
        List.not_mem_nil, or_false] at hmem
      obtain rfl | rfl := hmem
      · exact shallow_ofString _
      · exact htypes
  | some hash =>
      simp only [toFields, hashField, hhash, List.cons_append, List.nil_append, List.mem_cons,
        List.not_mem_nil, or_false] at hmem
      obtain rfl | rfl | rfl := hmem
      · exact shallow_ofString _
      · exact shallow_ofString _
      · exact htypes

theorem shallow_toJson (artifact : Artifact) : Shallow 7 artifact.toJson :=
  shallow_ofFields artifact.shallow_toFields

end Artifact

end Writing

section Reading

variable {budget : Nat} {fields : Fields}

theorem Metadata.Piece.spelling (piece : Piece) :
    Spelling Piece.record [("key", .ofString piece.key), ("value", .ofString piece.value)]
      piece where
  read := Record.read_seq (Record.read_map _
    (Record.read_field rfl (Json.asString_ofString piece.key)))
      (Record.read_field rfl (Json.asString_ofString piece.value))
  names := by simp
  written := writtenFields_cons (Json.written_ofString _)
    (writtenFields_cons (Json.written_ofString _) writtenFields_nil)

theorem read_pieces {pieces : List Piece}
    (hfind : fields.find? (·.1 == "meta") = some ("meta", piecesJson pieces))
    (hbudget : 1 < budget) : (Record.pieces budget).read fields = .ok pieces := by
  refine Record.read_field hfind (Json.asList_map (by omega) fun piece _ => ?_)
  exact piece.spelling.ofJson (by omega)

-- The name of the list that holds the members of a kind.
def MemberKind.listKey : MemberKind → String
  | field => "fields"
  | staticField => "static_fields"
  | method => "methods"
  | enumerator => "enumerators"

theorem MemberKind.asName_nameIn (kind : MemberKind) :
    Json.asName names (Json.nameIn names kind) = .ok kind := by
  cases kind <;> exact Json.asName_ofString rfl

theorem MemberDescriptor.spelling (member : MemberDescriptor) (hbudget : 1 < budget) :
    Spelling (record budget) member.toFields member where
  read := Record.read_seq (Record.read_seq (Record.read_map _
    (Record.read_field rfl (Json.asString_ofString member.name)))
      (Record.read_field rfl (MemberKind.asName_nameIn member.kind))) (read_pieces rfl hbudget)
  names := by simp [toFields]
  written := fun field hmem => (member.shallow_toFields field hmem).1

namespace TypeBody

section Members

variable {members : List MemberDescriptor} {name : String}

-- No members are as good as no field.
theorem read_members (hfind : fields.find? (·.1 == name) = (membersField name members).head?)
    (hbudget : 3 < budget) : (TypeBody.members budget name).read fields = .ok members := by
  unfold membersField at hfind
  split at hfind
  · next hempty =>
    rw [List.isEmpty_iff.mp hempty]
    exact Record.read_absent hfind
  · refine Record.read_field hfind (Json.asList_map (by omega) fun member _ => ?_)
    exact (member.spelling (by omega)).ofJson (by omega)

theorem membersField_nil (name : String) : membersField name [] = [] := rfl

theorem find?_membersField (name : String) (members : List MemberDescriptor) :
    (membersField name members).find? (·.1 == name) = (membersField name members).head? := by
  unfold membersField
  split
  · rfl
  · exact List.find?_cons_of_pos (beq_self_eq_true name)

theorem find?_membersField_ne {other : String} (h : other ≠ name) :
    (membersField other members).find? (·.1 == name) = none := by
  unfold membersField
  split
  · rfl
  · exact List.find?_cons_of_neg (by simpa using h)

theorem names_membersField (name : String) (members : List MemberDescriptor) :
    ((membersField name members).map (·.1)).Sublist [name] := by
  unfold membersField
  split
  · exact List.nil_sublist _
  · exact List.Sublist.refl _

end Members

end TypeBody

namespace TypeDescriptor

theorem names_toFields (type : TypeDescriptor) : (type.toFields.map (·.1)).Nodup := by
  cases type with
  | mk qualifiedName pieces body =>
      cases body with
      | classBody fields staticFields methods =>
          have hsub := ((TypeBody.names_membersField "fields" fields).append
            (TypeBody.names_membersField "static_fields" staticFields)).append
            (TypeBody.names_membersField "methods" methods)
          have hall : ["qualified_name", "meta", "kind", "fields", "static_fields",
            "methods"].Nodup := by decide
          refine hall.sublist ?_
          simpa [toFields, TypeBody.toFields] using hsub
      | enumBody enumerators =>
          have hsub := TypeBody.names_membersField "enumerators" enumerators
          have hall : ["qualified_name", "meta", "kind", "enumerators"].Nodup := by decide
          refine hall.sublist ?_
          simpa [toFields, TypeBody.toFields] using hsub

theorem skip_toFields (type : TypeDescriptor) :
    ∀ field ∈ type.toFields, field.2.skip = .ok () :=
  fun field hmem => (type.shallow_toFields field hmem).1.skip

theorem find?_lists (type : TypeDescriptor) {name : String}
    (h : name ∉ ["qualified_name", "meta", "kind"]) :
    type.toFields.find? (·.1 == name) = type.body.toFields.tail.find? (·.1 == name) := by
  simp only [List.mem_cons, List.not_mem_nil, or_false, not_or] at h
  have hne {other : String} (hother : name ≠ other) : (other == name) = false := by
    simpa using Ne.symm hother
  obtain ⟨kind, hkind⟩ : ∃ kind,
      type.body.toFields = ("kind", kind) :: type.body.toFields.tail := by
    cases type.body <;> exact ⟨_, rfl⟩
  rw [toFields, hkind]
  simp only [List.find?_cons, hne h.1, hne h.2.1, hne h.2.2, List.tail_cons]

-- Under the name of a list stand the members of its kind, if there are any.
theorem find?_listKey (type : TypeDescriptor) (kind : MemberKind) :
    type.toFields.find? (·.1 == kind.listKey) =
      (TypeBody.membersField kind.listKey (type.members kind)).head? := by
  rw [find?_lists _ (by cases kind <;> decide), members]
  cases type.body with
  | classBody fields statics methods =>
      change (TypeBody.membersField "fields" fields ++
        TypeBody.membersField "static_fields" statics ++
          TypeBody.membersField "methods" methods).find? _ = _
      rw [List.find?_append, List.find?_append]
      cases kind <;> simp [MemberKind.listKey, TypeBody.find?_membersField,
        TypeBody.find?_membersField_ne, TypeBody.members?, TypeBody.membersField_nil]
  | enumBody enumerators =>
      change (TypeBody.membersField "enumerators" enumerators).find? _ = _
      cases kind <;> simp [MemberKind.listKey, TypeBody.find?_membersField,
        TypeBody.find?_membersField_ne, TypeBody.members?, TypeBody.membersField_nil]

theorem bodyOf_toFields (type : TypeDescriptor) (hbudget : 3 < budget) :
    TypeBody.ofFields budget (Json.spelled type.toFields) = .ok type.body := by
  have htag (name : String) (tag : TypeBody.Tag)
      (hfind : type.toFields.find? (·.1 == "kind") = some ("kind", .ofString name))
      (hname : TypeBody.Tag.names.find? (·.1 == name) = some (name, tag)) :
      TypeBody.ofFields budget (Json.spelled type.toFields) =
        (TypeBody.record budget tag).ofFields Json.skip (Json.spelled type.toFields) := by
    have hread : (Record.required "kind" (Json.asTag true TypeBody.Tag.names)).ofFields Json.skip
        (Json.spelled type.toFields) = .ok tag :=
      Record.ofFields_spelled (Record.read_field hfind (Json.asTag_ofString hname true))
        type.names_toFields type.skip_toFields
    rw [TypeBody.ofFields, hread]
    rfl
  cases type with
  | mk qualifiedName pieces body =>
      cases body with
      | classBody fields staticFields methods =>
          rw [htag "class" .classTag rfl rfl]
          refine Record.ofFields_spelled (Record.read_seq (Record.read_seq
            (Record.read_map _ ?_) ?_) ?_) (names_toFields _) (skip_toFields _)
          · exact TypeBody.read_members (find?_listKey _ .field) hbudget
          · exact TypeBody.read_members (find?_listKey _ .staticField) hbudget
          · exact TypeBody.read_members (find?_listKey _ .method) hbudget
      | enumBody enumerators =>
          rw [htag "enum" .enumTag rfl rfl]
          exact Record.ofFields_spelled (Record.read_map _
            (TypeBody.read_members (find?_listKey _ .enumerator) hbudget)) (names_toFields _)
            (skip_toFields _)

theorem ofJson_toJson (type : TypeDescriptor) (hbudget : 4 < budget) :
    ofJson budget type.toJson = .ok type := by
  have hhead : (head (budget - 1)).ofFields (Json.readable (budget - 1))
      (Json.spelled type.toFields) = .ok (TypeDescriptor.mk type.qualifiedName type.pieces) := by
    refine Record.ofFields_spelled (Record.read_seq (Record.read_map _
      (Record.read_field rfl (Json.asString_ofString type.qualifiedName)))
        (read_pieces rfl (by omega))) type.names_toFields fun field hmem => ?_
    obtain ⟨hwritten, hdepth⟩ := type.shallow_toFields field hmem
    exact hwritten.readable (by omega)
  have hobject : type.toJson.asObject budget = .ok (Json.spelled type.toFields) :=
    if_neg (by omega)
  rw [ofJson, hobject]
  change (Except.bind _ fun withBody =>
    (TypeBody.ofFields (budget - 1) (Json.spelled type.toFields)).bind (.ok ∘ withBody)) = _
  rw [hhead, type.bodyOf_toFields (by omega)]
  rfl

end TypeDescriptor

end Reading

end Reflection
