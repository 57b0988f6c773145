import Reflection.Selection

namespace Reflection

-- A type of the tree, with its place and the names that lead to it, its own name last.
structure Occurrence where
  position : List Nat
  names : List String
  decl : TypeDecl

-- A named and defined type, no template, stands at this place of the entity. Anonymous namespaces
-- give no name; nothing stands in a class without a name, a declaration or a template.
inductive Entity.Holds : Entity → List Nat → List String → TypeDecl → Prop where
  | classType {head : ClassHead} {members : List Member} {name : String}
      (hname : head.name = some name) (hdefined : head.isDefinition = true)
      (hplain : head.isTemplate = false) :
      Holds (.classDecl head members) [] [name] (.classType head members)
  | enumType {decl : EnumDecl} {name : String}
      (hname : decl.name = some name) (hdefined : decl.isDefinition = true) :
      Holds (.enumDecl decl) [] [name] (.enumType decl)
  | inNamespace {head : NamespaceHead} {entities : List Entity} {index : Nat} {entity : Entity}
      {position : List Nat} {names : List String} {decl : TypeDecl}
      (hentity : entities[index]? = some entity) (h : entity.Holds position names decl) :
      Holds (.namespaceDecl head entities) (index :: position) (head.name.toList ++ names) decl
  | inClass {head : ClassHead} {members : List Member} {name : String} {index : Nat}
      {entity : Entity} {position : List Nat} {names : List String} {decl : TypeDecl}
      (hname : head.name = some name) (hdefined : head.isDefinition = true)
      (hplain : head.isTemplate = false) (hmember : members[index]? = some (.type entity))
      (h : entity.Holds position names decl) :
      Holds (.classDecl head members) (index :: position) (name :: names) decl

def DeclarationTree.Holds (tree : DeclarationTree) (occurrence : Occurrence) : Prop :=
  ∃ index entity position, tree.entities[index]? = some entity ∧
    occurrence.position = index :: position ∧
    entity.Holds position occurrence.names occurrence.decl

namespace Occurrence

def under (index : Nat) (occurrence : Occurrence) : Occurrence :=
  { occurrence with position := index :: occurrence.position }

def inside (names : List String) (occurrence : Occurrence) : Occurrence :=
  { occurrence with names := names ++ occurrence.names }

end Occurrence

mutual

-- The types of an entity from top to bottom.
def Entity.occurrences : Entity → List Occurrence
  | .namespaceDecl head entities => (occurrencesOf 0 entities).map (.inside head.name.toList)
  | .classDecl head members =>
    match head.name with
    | some name =>
      if head.isDefinition && !head.isTemplate then
        ⟨[], [name], .classType head members⟩ :: (nestedOccurrences 0 members).map (.inside [name])
      else []
    | none => []
  | .enumDecl decl =>
    match decl.name with
    | some name => if decl.isDefinition then [⟨[], [name], .enumType decl⟩] else []
    | none => []

-- The types of entities from the one with this index on.
def occurrencesOf (index : Nat) : List Entity → List Occurrence
  | [] => []
  | entity :: entities => entity.occurrences.map (.under index) ++ occurrencesOf (index + 1) entities

def nestedOccurrences (index : Nat) : List Member → List Occurrence
  | [] => []
  | .type entity :: members =>
    entity.occurrences.map (.under index) ++ nestedOccurrences (index + 1) members
  | .field _ :: members => nestedOccurrences (index + 1) members
  | .method _ :: members => nestedOccurrences (index + 1) members

end

def Member.occurrences : Member → List Occurrence
  | .type entity => entity.occurrences
  | .field _ => []
  | .method _ => []

-- The types in numbered parts, the first of which has this index.
def numbered {α : Type} (types : α → List Occurrence) (index : Nat) (parts : List α) :
    List Occurrence :=
  (parts.zipIdx index).flatMap fun part => (types part.1).map (.under part.2)

theorem occurrencesOf_eq_numbered (index : Nat) (entities : List Entity) :
    occurrencesOf index entities = numbered Entity.occurrences index entities := by
  induction entities generalizing index with
  | nil => rfl
  | cons entity entities ih =>
      rw [occurrencesOf, ih]
      rfl

theorem nestedOccurrences_eq_numbered (index : Nat) (members : List Member) :
    nestedOccurrences index members = numbered Member.occurrences index members := by
  induction members generalizing index with
  | nil => rfl
  | cons member members ih =>
      cases member with
      | field _ | method _ | type _ =>
          rw [nestedOccurrences, ih]
          rfl

section Numbered

variable {α : Type} {types : α → List Occurrence} {index : Nat} {parts : List α}

theorem mem_numbered {occurrence : Occurrence} :
    occurrence ∈ numbered types index parts ↔
      ∃ offset part, parts[offset]? = some part ∧
        ∃ inner ∈ types part, inner.under (index + offset) = occurrence := by
  unfold numbered
  simp only [List.mem_flatMap, List.mem_map, Prod.exists, List.mk_mem_zipIdx_iff_le_and_getElem?_sub]
  constructor
  · rintro ⟨part, place, ⟨hle, hpart⟩, inner, hinner, rfl⟩
    exact ⟨place - index, part, hpart, inner, hinner, by rw [Nat.add_sub_cancel' hle]⟩
  · rintro ⟨offset, part, hpart, inner, hinner, rfl⟩
    refine ⟨part, index + offset, ⟨Nat.le_add_right _ _, ?_⟩, inner, hinner, rfl⟩
    rwa [Nat.add_sub_cancel_left]

theorem numbered_pairwise
    (h : ∀ part ∈ parts, (types part).Pairwise fun first second => first.position < second.position) :
    (numbered types index parts).Pairwise fun first second => first.position < second.position := by
  induction parts generalizing index with
  | nil => exact .nil
  | cons part parts ih =>
      have hparts := @ih (index + 1) fun part hpart => h part (List.mem_cons_of_mem _ hpart)
      change ((types part).map (Occurrence.under index) ++ numbered types (index + 1) parts).Pairwise _
      refine List.pairwise_append.mpr ⟨?_, hparts, ?_⟩
      · refine List.pairwise_map.mpr ((h part List.mem_cons_self).imp fun hlt => ?_)
        exact List.cons_lt_cons_iff.mpr (.inr ⟨rfl, hlt⟩)
      · intro first hfirst second hsecond
        obtain ⟨inner, _, rfl⟩ := List.mem_map.mp hfirst
        obtain ⟨offset, other, _, outer, _, rfl⟩ := mem_numbered.mp hsecond
        exact List.cons_lt_cons_iff.mpr (.inl (by omega))

-- What is said about the types without their places does not depend on the numbers.
theorem map_numbered {β : Type} (f : Occurrence → β)
    (h : ∀ place occurrence, f (Occurrence.under place occurrence) = f occurrence) :
    (numbered types index parts).map f = parts.flatMap fun part => (types part).map f := by
  induction parts generalizing index with
  | nil => rfl
  | cons part parts ih =>
      have hpart : ((types part).map (Occurrence.under index)).map f = (types part).map f := by
        rw [List.map_map]
        exact List.map_congr_left fun occurrence _ => h index occurrence
      change ((types part).map (Occurrence.under index) ++ numbered types (index + 1) parts).map f = _
      rw [List.map_append, hpart, ih, List.flatMap_cons]

end Numbered

section Entities

-- Induction over an entity, with what holds of the entities in a namespace and of the types
-- nested in a class.
theorem Entity.induct {motive : Entity → Prop}
    (namespaceDecl : ∀ head entities, (∀ entity ∈ entities, motive entity) →
      motive (.namespaceDecl head entities))
    (classDecl : ∀ head members, (∀ entity, .type entity ∈ members → motive entity) →
      motive (.classDecl head members))
    (enumDecl : ∀ decl, motive (.enumDecl decl)) (entity : Entity) : motive entity := by
  match entity with
  | .namespaceDecl head entities =>
      exact namespaceDecl head entities fun inner _ =>
        Entity.induct namespaceDecl classDecl enumDecl inner
  | .classDecl head members =>
      exact classDecl head members fun nested _ =>
        Entity.induct namespaceDecl classDecl enumDecl nested
  | .enumDecl decl => exact enumDecl decl
termination_by sizeOf entity
decreasing_by
  · next hmem =>
    have := List.sizeOf_lt_of_mem hmem
    simp only [Entity.namespaceDecl.sizeOf_spec]
    omega
  · next hmem =>
    have := List.sizeOf_lt_of_mem hmem
    simp only [Entity.classDecl.sizeOf_spec, Member.type.sizeOf_spec] at this ⊢
    omega

theorem Entity.occurrences_pairwise (entity : Entity) :
    entity.occurrences.Pairwise fun first second => first.position < second.position := by
  induction entity using Entity.induct with
  | namespaceDecl head entities ih =>
      rw [Entity.occurrences, occurrencesOf_eq_numbered]
      exact List.pairwise_map.mpr (numbered_pairwise ih)
  | classDecl head members ih =>
      rw [Entity.occurrences, nestedOccurrences_eq_numbered]
      cases head.name with
      | none => exact .nil
      | some name =>
          dsimp only
          split
          · refine List.pairwise_cons.mpr ⟨?_, List.pairwise_map.mpr (numbered_pairwise ?_)⟩
            · intro second hsecond
              obtain ⟨inner, hinner, rfl⟩ := List.mem_map.mp hsecond
              obtain ⟨offset, member, _, outer, _, rfl⟩ := mem_numbered.mp hinner
              exact List.nil_lt_cons _ _
            · intro member hmember
              cases member with
              | field _ | method _ => exact .nil
              | type nested => exact ih nested hmember
          · exact .nil
  | enumDecl decl =>
      rw [Entity.occurrences]
      cases decl.name with
      | none => exact .nil
      | some name =>
          dsimp only
          split
          · exact List.pairwise_singleton _ _
          · exact .nil

theorem Entity.holds_of_mem_occurrences {entity : Entity} {occurrence : Occurrence}
    (h : occurrence ∈ entity.occurrences) :
    entity.Holds occurrence.position occurrence.names occurrence.decl := by
  induction entity using Entity.induct generalizing occurrence with
  | namespaceDecl head entities ih =>
      rw [Entity.occurrences, occurrencesOf_eq_numbered, List.mem_map] at h
      obtain ⟨found, hfound, rfl⟩ := h
      obtain ⟨index, entity, hentity, inner, hinner, rfl⟩ := mem_numbered.mp hfound
      rw [Nat.zero_add]
      exact .inNamespace hentity (ih entity (List.mem_of_getElem? hentity) hinner)
  | classDecl head members ih =>
      rw [Entity.occurrences, nestedOccurrences_eq_numbered] at h
      cases hname : head.name with
      | none => simp [hname] at h
      | some name =>
          simp only [hname] at h
          split at h
          · next hkept =>
            obtain ⟨hdefined, hplain⟩ : head.isDefinition = true ∧ head.isTemplate = false := by
              simpa using hkept
            rcases List.mem_cons.mp h with rfl | h
            · exact .classType hname hdefined hplain
            · obtain ⟨found, hfound, rfl⟩ := List.mem_map.mp h
              obtain ⟨index, member, hmember, inner, hinner, rfl⟩ := mem_numbered.mp hfound
              rw [Nat.zero_add]
              cases member with
              | field _ | method _ => cases hinner
              | type nested =>
                  exact .inClass hname hdefined hplain hmember
                    (ih nested (List.mem_of_getElem? hmember) hinner)
          · cases h
  | enumDecl decl =>
      rw [Entity.occurrences] at h
      cases hname : decl.name with
      | none => simp [hname] at h
      | some name =>
          simp only [hname] at h
          split at h
          · next hdefined =>
            cases List.mem_singleton.mp h
            exact .enumType hname hdefined
          · cases h

theorem Entity.Holds.mem_occurrences {entity : Entity} {position : List Nat} {names : List String}
    {decl : TypeDecl} (h : entity.Holds position names decl) :
    ⟨position, names, decl⟩ ∈ entity.occurrences := by
  induction h with
  | classType hname hdefined hplain =>
      rw [Entity.occurrences]
      simp [hname, hdefined, hplain]
  | enumType hname hdefined =>
      rw [Entity.occurrences]
      simp [hname, hdefined]
  | @inNamespace head entities index entity position names decl hentity _ ih =>
      rw [Entity.occurrences, occurrencesOf_eq_numbered]
      refine List.mem_map.mpr ⟨_, mem_numbered.mpr ⟨index, entity, hentity, _, ih, rfl⟩, ?_⟩
      rw [Nat.zero_add]
      rfl
  | @inClass head members name index entity position names decl hname hdefined hplain hmember _ ih =>
      rw [Entity.occurrences, nestedOccurrences_eq_numbered]
      have hnested : Occurrence.under index ⟨position, names, decl⟩ ∈
          numbered Member.occurrences 0 members :=
        mem_numbered.mpr ⟨index, .type entity, hmember, _, ih, by rw [Nat.zero_add]⟩
      simp only [hname, hdefined, hplain, Bool.not_false, Bool.and_self, if_true]
      exact List.mem_cons_of_mem _ (List.mem_map.mpr ⟨_, hnested, rfl⟩)

end Entities

-- Going through a tree from top to bottom gives each type that stands in it once.
theorem DeclarationTree.mem_occurrencesOf {tree : DeclarationTree} {occurrence : Occurrence} :
    occurrence ∈ occurrencesOf 0 tree.entities ↔ tree.Holds occurrence := by
  rw [occurrencesOf_eq_numbered, mem_numbered]
  constructor
  · rintro ⟨index, entity, hentity, inner, hinner, rfl⟩
    exact ⟨index, entity, inner.position, hentity, by rw [Nat.zero_add]; rfl,
      Entity.holds_of_mem_occurrences hinner⟩
  · rintro ⟨index, entity, position, hentity, hposition, h⟩
    refine ⟨index, entity, hentity, _, h.mem_occurrences, ?_⟩
    rw [Nat.zero_add, Occurrence.under, ← hposition]

theorem occurrencesOf_pairwise (entities : List Entity) :
    (occurrencesOf 0 entities).Pairwise fun first second => first.position < second.position := by
  rw [occurrencesOf_eq_numbered]
  exact numbered_pairwise fun entity _ => entity.occurrences_pairwise

end Reflection
