import Mathlib.Data.List.Forall2
import Reflection.Proofs.Descriptor.Records

namespace Reflection

open Json (Record Fields)

namespace Json

-- The names of the fields of an object.
def keys : Json → List String
  | .object fields => fields.filterMap fun field => field.1.text.toOption
  | _ => []

-- What stands in the array that the field of this name holds.
def itemsAt (key : String) : Json → List Json
  | .object fields =>
    match fields.find? fun field => field.1.text.toOption == some key with
    | some (_, .array items) => items
    | _ => []
  | _ => []

theorem keys_ofFields (fields : Fields) : (ofFields fields).keys = fields.map (·.1) := by
  rw [ofFields, keys]
  induction fields with
  | nil => rfl
  | cons field fields ih =>
      rw [List.map_cons, List.filterMap_cons, text_spelled, List.map_cons, ← ih]
      rfl

theorem itemsAt_ofFields (fields : Fields) (key : String) :
    (ofFields fields).itemsAt key =
      match fields.find? (·.1 == key) with
      | some (_, .array items) => items
      | _ => [] := by
  have hcomp : ((fun field : Name × Json => field.1.text.toOption == some key) ∘
      fun field : String × Json => (Name.spelled (escape field.1.toList), field.2)) =
      fun field => field.1 == key := by
    funext field
    rw [Function.comp_apply, text_spelled]
    rfl
  rw [ofFields, itemsAt, List.find?_map, hcomp]
  cases fields.find? (·.1 == key) with
  | none => rfl
  | some field =>
      obtain ⟨name, json⟩ := field
      cases json <;> rfl

end Json

-- Does an object hold a type in this way: with metadata throughout, and with lists of members only
-- where there are any?
structure TypeDescriptor.IsWrittenAs (type : TypeDescriptor) (json : Json) : Prop where
  metadata : "meta" ∈ json.keys
  lists (kind : MemberKind) : kind.listKey ∈ json.keys ↔ type.members kind ≠ []
  length (kind : MemberKind) :
    (json.itemsAt kind.listKey).length = (type.members kind).length
  members (kind : MemberKind) : ∀ member ∈ json.itemsAt kind.listKey, "meta" ∈ member.keys

theorem MemberDescriptor.keys_toJson (member : MemberDescriptor) :
    member.toJson.keys = ["name", "kind", "meta"] :=
  Json.keys_ofFields member.toFields

namespace TypeDescriptor

theorem keys_toJson (type : TypeDescriptor) : type.toJson.keys = type.toFields.map (·.1) :=
  Json.keys_ofFields type.toFields

theorem listKey_mem (type : TypeDescriptor) (kind : MemberKind) :
    kind.listKey ∈ type.toJson.keys ↔ type.members kind ≠ [] := by
  have hmem : kind.listKey ∈ type.toFields.map (·.1) ↔
      (type.toFields.find? (·.1 == kind.listKey)).isSome = true := by
    simp [List.find?_isSome]
  rw [keys_toJson, hmem, type.find?_listKey kind, TypeBody.membersField]
  cases type.members kind <;> simp

theorem itemsAt_listKey (type : TypeDescriptor) (kind : MemberKind) :
    type.toJson.itemsAt kind.listKey = (type.members kind).map MemberDescriptor.toJson := by
  refine (Json.itemsAt_ofFields type.toFields kind.listKey).trans ?_
  rw [type.find?_listKey kind, TypeBody.membersField]
  cases type.members kind <;> rfl

theorem isWrittenAs_toJson (type : TypeDescriptor) : type.IsWrittenAs type.toJson where
  metadata := by
    rw [keys_toJson]
    exact .tail _ (.head _)
  lists := type.listKey_mem
  length kind := by rw [itemsAt_listKey, List.length_map]
  members kind object hmem := by
    rw [itemsAt_listKey] at hmem
    obtain ⟨member, -, rfl⟩ := List.mem_map.mp hmem
    rw [member.keys_toJson]
    exact .tail _ (.tail _ (.head _))

end TypeDescriptor

namespace Artifact

variable {budget : Nat}

theorem names_toFields (artifact : Artifact) : (artifact.toFields.map (·.1)).Nodup := by
  rw [toFields, hashField]
  cases artifact.sourceHash <;> simp

theorem read_sourceHash (artifact : Artifact) :
    (Record.optional "source_hash" none (Json.asOption Json.asString)).read artifact.toFields =
      .ok artifact.sourceHash := by
  cases hhash : artifact.sourceHash with
  | none =>
      refine Record.read_absent ?_
      rw [toFields, hashField, hhash]
      rfl
  | some hash =>
      have hfind : artifact.toFields.find? (·.1 == "source_hash") =
          some ("source_hash", .ofString hash) := by
        rw [toFields, hashField, hhash]
        rfl
      exact Record.read_field hfind (Json.asOption_ofString (some hash))

theorem find?_types (artifact : Artifact) : artifact.toFields.find? (·.1 == "types") =
    some ("types", .array (artifact.types.map TypeDescriptor.toJson)) := by
  rw [toFields, hashField]
  cases artifact.sourceHash <;> rfl

theorem itemsAt_types (artifact : Artifact) :
    artifact.toJson.itemsAt "types" = artifact.types.map TypeDescriptor.toJson := by
  refine (Json.itemsAt_ofFields artifact.toFields "types").trans ?_
  rw [artifact.find?_types]

theorem spelling (artifact : Artifact) (hbudget : 5 < budget) :
    Spelling (record budget) artifact.toFields artifact where
  read := by
    refine Record.read_seq (Record.read_seq (Record.read_map _
      (Record.read_field rfl (Json.asString_ofString artifact.source))) artifact.read_sourceHash) ?_
    exact Record.read_field artifact.find?_types
      (Json.asList_map (by omega) fun type _ => type.ofJson_toJson (by omega))
  names := artifact.names_toFields
  written := fun field hmem => (artifact.shallow_toFields field hmem).1

theorem parse_renderJson (artifact : Artifact) : parse artifact.renderJson = .ok artifact := by
  rw [parse, renderJson,
    Json.read_print artifact.shallow_toJson.1 .indented (List.all_eq_true.mp rfl)]
  exact (artifact.spelling (by decide)).ofJson (by decide)

-- A rendered artifact is read back, and holds what it is to hold of each type and nothing empty.
theorem renderJson_faithful (artifact : Artifact) :
    parse artifact.renderJson = .ok artifact ∧
      ∃ json, Json.parse artifact.renderJson = ⟨json, false⟩ ∧
        List.Forall₂ TypeDescriptor.IsWrittenAs artifact.types (json.itemsAt "types") := by
  refine ⟨artifact.parse_renderJson, artifact.toJson,
    Json.parse_print artifact.shallow_toJson.1 .indented (List.all_eq_true.mp rfl), ?_⟩
  rw [artifact.itemsAt_types]
  exact List.forall₂_map_right_iff.mpr
    (List.forall₂_same.mpr fun type _ => type.isWrittenAs_toJson)

end Artifact

end Reflection
