import Mathlib.Data.List.Induction
import Mathlib.Data.List.Nodup
import Reflection.Registry

namespace Reflection

namespace Registry

variable {registry : Registry}

-- The positions are those of the names, and of nothing else.
def InStep (registry : Registry) : Prop :=
  ∀ (name : String) (position : Nat), registry.positions[name]? = some position ↔
    registry.names[position]? = some name

theorem inStep_empty : empty.InStep := by
  intro name position
  simp [empty, names]

theorem names_push (registry : Registry) (type : TypeDescriptor) :
    (registry.push type).names = registry.names ++ [type.qualifiedName] :=
  List.map_append

theorem length_names (registry : Registry) : registry.names.length = registry.size :=
  List.length_map _

theorem getElem?_names_push {type : TypeDescriptor} {name : String} {position : Nat} :
    (registry.push type).names[position]? = some name ↔
      registry.names[position]? = some name ∨
        (position = registry.size ∧ type.qualifiedName = name) := by
  rw [names_push, List.getElem?_append, length_names]
  split
  · next hlt =>
    have hne : position ≠ registry.size := Nat.ne_of_lt hlt
    simp [hne]
  · next hle =>
    have hnone : registry.names[position]? = none :=
      List.getElem?_eq_none (by rw [length_names]; omega)
    rw [hnone, List.getElem?_singleton]
    by_cases hlast : position = registry.size
    · simp [hlast]
    · simp [hlast, show position - registry.size ≠ 0 by omega]

namespace InStep

theorem nodup (h : registry.InStep) : registry.names.Nodup := by
  refine List.nodup_iff_getElem?_ne_getElem?.mpr fun first second hlt hlength heq => ?_
  have hsecond : registry.names[second]? = some registry.names[second] :=
    List.getElem?_eq_getElem hlength
  have hfirst := (h _ first).mpr (heq.trans hsecond)
  rw [(h _ second).mpr hsecond] at hfirst
  exact Nat.ne_of_gt hlt (Option.some.inj hfirst)

theorem contains_iff (h : registry.InStep) (name : String) :
    registry.contains name = true ↔ name ∈ registry.names := by
  rw [contains, Std.HashMap.contains_eq_isSome_getElem?, Option.isSome_iff_exists,
    List.mem_iff_getElem?]
  exact exists_congr fun position => h name position

theorem contains_of_notMem (h : registry.InStep) {name : String} (hname : name ∉ registry.names) :
    registry.contains name = false :=
  Bool.eq_false_iff.mpr (mt (h.contains_iff name).mp hname)

theorem find?_of_mem (h : registry.InStep) {type : TypeDescriptor}
    (hmem : type ∈ registry.types) : registry.find? type.qualifiedName = some type := by
  obtain ⟨position, htype⟩ := List.mem_iff_getElem?.mp hmem
  have hname : registry.names[position]? = some type.qualifiedName := by
    rw [names, List.getElem?_map, htype]
    rfl
  rw [find?, (h _ position).mpr hname]
  exact htype

-- Looking a name up gives the first of the types that has it.
theorem find?_eq (h : registry.InStep) (name : String) :
    registry.find? name = registry.types.find? (·.qualifiedName == name) := by
  rw [find?]
  cases hposition : registry.positions[name]? with
  | none =>
      have hname : name ∉ registry.names := by
        rw [← h.contains_iff, contains, Std.HashMap.contains_eq_isSome_getElem?, hposition]
        exact Bool.false_ne_true
      refine (List.find?_eq_none.mpr fun type hmem htype => hname ?_).symm
      exact beq_iff_eq.mp htype ▸ List.mem_map_of_mem hmem
  | some position =>
      have hnamed := (h name position).mp hposition
      obtain ⟨type, htype, rfl⟩ := Option.map_eq_some_iff.mp (List.getElem?_map.symm.trans hnamed)
      obtain ⟨hlength, hget⟩ := List.getElem?_eq_some_iff.mp htype
      have hfirst : registry.types.find? (·.qualifiedName == type.qualifiedName) = some type := by
        refine List.find?_eq_some_iff_getElem.mpr
          ⟨beq_self_eq_true type.qualifiedName, position, hlength, hget, fun other hother => ?_⟩
        have hdistinct := List.nodup_iff_getElem?_ne_getElem?.mp h.nodup other position hother
          (by rw [length_names]; exact hlength)
        rw [hnamed, names, List.getElem?_map,
          List.getElem?_eq_getElem (Nat.lt_trans hother hlength)] at hdistinct
        simpa using hdistinct
      rw [Option.bind_some, htype, hfirst]

theorem push (h : registry.InStep) {type : TypeDescriptor}
    (hnew : type.qualifiedName ∉ registry.names) : (registry.push type).InStep := by
  intro name position
  rw [getElem?_names_push]
  change (registry.positions.insert type.qualifiedName registry.size)[name]? = _ ↔ _
  rw [Std.HashMap.getElem?_insert]
  by_cases hname : type.qualifiedName = name
  · subst hname
    rw [if_pos (beq_self_eq_true _), Option.some_inj]
    constructor
    · intro hposition
      exact .inr ⟨hposition.symm, rfl⟩
    · rintro (hold | ⟨hposition, _⟩)
      · exact absurd (List.mem_of_getElem? hold) hnew
      · exact hposition.symm
  · rw [if_neg (by simpa using hname), h name position]
    simp [hname]

end InStep

section Batches

def pushAll (registry : Registry) (types : List TypeDescriptor) : Registry :=
  types.foldl push registry

theorem types_pushAll (registry : Registry) (types : List TypeDescriptor) :
    (registry.pushAll types).types = registry.types ++ types := by
  induction types generalizing registry with
  | nil => exact (List.append_nil _).symm
  | cons type types ih =>
      rw [pushAll, List.foldl_cons, ← pushAll, ih]
      exact List.append_assoc registry.types [type] types

-- The names of all types, those of the registry first.
def namesWith (registry : Registry) (types : List TypeDescriptor) : List String :=
  registry.names ++ types.map (·.qualifiedName)

theorem names_pushAll (registry : Registry) (types : List TypeDescriptor) :
    (registry.pushAll types).names = registry.namesWith types := by
  rw [names, types_pushAll, List.map_append]
  rfl

theorem namesWith_push (registry : Registry) (type : TypeDescriptor)
    (types : List TypeDescriptor) :
    (registry.push type).namesWith types = registry.namesWith (type :: types) := by
  rw [namesWith, names_push, List.append_assoc]
  rfl

theorem namesWith_append (registry : Registry) (first second : List TypeDescriptor) :
    registry.namesWith (first ++ second) =
      registry.namesWith first ++ second.map (·.qualifiedName) := by
  rw [namesWith, List.map_append, ← List.append_assoc, ← namesWith]

theorem namesWith_nil (registry : Registry) : registry.namesWith [] = registry.names :=
  List.append_nil _

theorem notMem_namesWith {earlier types : List TypeDescriptor} {type : TypeDescriptor}
    (hnew : (registry.namesWith (earlier ++ type :: types)).Nodup) :
    type.qualifiedName ∉ registry.namesWith earlier := by
  rw [namesWith_append] at hnew
  exact fun hmem => (List.nodup_append.mp hnew).2.2 _ hmem _ (.head _) rfl

theorem notMem_names {types : List TypeDescriptor} {type : TypeDescriptor}
    (hnew : (registry.namesWith (type :: types)).Nodup) :
    type.qualifiedName ∉ registry.names :=
  registry.namesWith_nil ▸ @notMem_namesWith registry [] types type hnew

theorem InStep.pushAll (h : registry.InStep) {types : List TypeDescriptor}
    (hnew : (registry.namesWith types).Nodup) : (registry.pushAll types).InStep := by
  induction types generalizing registry with
  | nil => exact h
  | cons type types ih =>
      refine ih (h.push (notMem_names hnew)) ?_
      rwa [namesWith_push]

-- A type of this name is the first of the types whose name is taken, in the registry or among the
-- types before it.
def FirstRepeated (registry : Registry) (types : List TypeDescriptor) (name : String) : Prop :=
  ∃ before type after, types = before ++ type :: after ∧ type.qualifiedName = name ∧
    (registry.namesWith before).Nodup ∧ name ∈ registry.namesWith before

theorem exists_firstRepeated (hnames : registry.names.Nodup) {types : List TypeDescriptor}
    (hrepeated : ¬(registry.namesWith types).Nodup) :
    ∃ name, registry.FirstRepeated types name := by
  induction types using List.reverseRecOn with
  | nil => exact absurd (registry.namesWith_nil ▸ hnames) hrepeated
  | append_singleton types type ih =>
      by_cases hnew : (registry.namesWith types).Nodup
      · refine ⟨type.qualifiedName, types, type, [], rfl, rfl, hnew, ?_⟩
        by_contra hname
        rw [namesWith_append, List.nodup_append_comm] at hrepeated
        exact hrepeated (List.nodup_cons.mpr ⟨hname, hnew⟩)
      · obtain ⟨name, before, other, after, rfl, hfirst⟩ := ih hnew
        exact ⟨name, before, other, after ++ [type], by simp, hfirst⟩

end Batches

section Calls

variable {α β : Type}

theorem perform_get : registry.perform get = (.ok registry, registry) := rfl

theorem perform_bind (call : Call α) (next : α → Call β) :
    registry.perform (call >>= next) =
      match registry.perform call with
      | (.ok value, later) => later.perform (next value)
      | (.error error, later) => (.error error, later) := by
  change (ExceptT.bindCont next (call.run.run registry).1).run (call.run.run registry).2 = _
  rw [perform]
  rcases call.run.run registry with ⟨value | error, later⟩ <;> rfl

theorem perform_discard (call : Call α) :
    registry.perform (discard call) =
      ((registry.perform call).1.map fun _ => (), (registry.perform call).2) := by
  change registry.perform (call >>= fun _ => pure ()) = _
  rw [perform_bind]
  rcases registry.perform call with ⟨error | value, later⟩ <;> rfl

theorem perform_register (type : TypeDescriptor) :
    registry.perform (register type) =
      if registry.contains type.qualifiedName then
        (.error (.duplicate type.qualifiedName), registry)
      else (.ok type, registry.push type) := by
  rw [register, perform_bind, perform_get]
  dsimp only
  split <;> rfl

theorem perform_register_new (h : registry.InStep) {type : TypeDescriptor}
    (hnew : type.qualifiedName ∉ registry.names) :
    registry.perform (register type) = (.ok type, registry.push type) := by
  rw [perform_register, h.contains_of_notMem hnew]
  rfl

theorem perform_registerAll (h : registry.InStep) {types : List TypeDescriptor}
    (hnew : (registry.namesWith types).Nodup) :
    registry.perform (registerAll types) = (.ok (), registry.pushAll types) := by
  induction types generalizing registry with
  | nil => rfl
  | cons type types ih =>
      have hname := notMem_names hnew
      rw [registerAll, perform_bind, perform_discard, perform_register_new h hname]
      exact ih (h.push hname) (by rwa [namesWith_push])

theorem perform_checkNew_cons (incoming : Std.HashSet String) (type : TypeDescriptor)
    (types : List TypeDescriptor) :
    registry.perform (checkNew incoming (type :: types)) =
      if registry.contains type.qualifiedName || incoming.contains type.qualifiedName then
        (.error (.duplicate type.qualifiedName), registry)
      else registry.perform (checkNew (incoming.insert type.qualifiedName) types) := by
  rw [checkNew, perform_bind, perform_get]
  dsimp only
  split <;> rfl

-- Does the set hold the names of these types?
def HoldsNames (incoming : Std.HashSet String) (types : List TypeDescriptor) : Prop :=
  ∀ name, incoming.contains name = true ↔ name ∈ types.map (·.qualifiedName)

theorem HoldsNames.isTaken_iff (h : registry.InStep) {incoming : Std.HashSet String}
    {types : List TypeDescriptor} (hincoming : HoldsNames incoming types) (name : String) :
    (registry.contains name || incoming.contains name) = true ↔
      name ∈ registry.namesWith types := by
  rw [Bool.or_eq_true, h.contains_iff, hincoming name, namesWith, List.mem_append]

theorem HoldsNames.insert {incoming : Std.HashSet String} {types : List TypeDescriptor}
    (hincoming : HoldsNames incoming types) (type : TypeDescriptor) :
    HoldsNames (incoming.insert type.qualifiedName) (types ++ [type]) := by
  intro name
  rw [Std.HashSet.contains_insert, Bool.or_eq_true, hincoming name, beq_iff_eq, or_comm,
    List.map_append, List.mem_append, List.map_singleton, List.mem_singleton, @eq_comm _ name]

-- New names are passed, and from then on they are taken.
theorem perform_checkNew_append (h : registry.InStep) {incoming : Std.HashSet String}
    {earlier : List TypeDescriptor} (hincoming : HoldsNames incoming earlier)
    {types : List TypeDescriptor} (hnew : (registry.namesWith (earlier ++ types)).Nodup)
    (others : List TypeDescriptor) :
    ∃ passed, HoldsNames passed (earlier ++ types) ∧
      registry.perform (checkNew incoming (types ++ others)) =
        registry.perform (checkNew passed others) := by
  induction types generalizing incoming earlier with
  | nil => exact ⟨incoming, by rwa [List.append_nil], rfl⟩
  | cons type types ih =>
      have hsplit : earlier ++ type :: types = (earlier ++ [type]) ++ types := by simp
      have hname := notMem_namesWith hnew
      rw [hsplit] at hnew ⊢
      obtain ⟨passed, hpassed, hperform⟩ := ih (hincoming.insert type) hnew
      refine ⟨passed, hpassed, ?_⟩
      rw [List.cons_append, perform_checkNew_cons,
        if_neg (mt (hincoming.isTaken_iff h _).mp hname), hperform]

theorem perform_checkNew_new (h : registry.InStep) {types : List TypeDescriptor}
    (hnew : (registry.namesWith types).Nodup) :
    registry.perform (checkNew ∅ types) = (.ok (), registry) := by
  have hempty : HoldsNames ∅ [] := by simp [HoldsNames]
  obtain ⟨passed, _, hperform⟩ := perform_checkNew_append h hempty hnew []
  rw [← List.append_nil types, hperform]
  rfl

theorem perform_checkNew_repeated (h : registry.InStep) {types : List TypeDescriptor}
    {name : String} (hrepeated : registry.FirstRepeated types name) :
    registry.perform (checkNew ∅ types) = (.error (.duplicate name), registry) := by
  obtain ⟨before, type, after, rfl, rfl, hnew, hmem⟩ := hrepeated
  have hempty : HoldsNames ∅ [] := by simp [HoldsNames]
  obtain ⟨passed, hpassed, hperform⟩ := perform_checkNew_append h hempty hnew (type :: after)
  rw [hperform, perform_checkNew_cons, if_pos ((hpassed.isTaken_iff h _).mpr hmem)]

end Calls

section Histories

inductive Operation where
  | register (type : TypeDescriptor)
  | load (text : List Char)

namespace Operation

-- The types that a call is to bring.
def types : Operation → Json.Reading (List TypeDescriptor)
  | register type => .ok [type]
  | load text => (Artifact.parse text).map (·.types)

def call : Operation → Call Unit
  | register type => discard (Registry.register type)
  | load text => discard (Registry.load text)

end Operation

section Load

variable {text : List Char}

theorem perform_load_fault {fault : Json.Fault} (hparse : Artifact.parse text = .error fault) :
    registry.perform (load text) = (.error (.load fault), registry) := by
  rw [load, hparse]
  rfl

theorem perform_load_new (h : registry.InStep) {artifact : Artifact}
    (hparse : Artifact.parse text = .ok artifact)
    (hnew : (registry.namesWith artifact.types).Nodup) :
    registry.perform (load text) =
      (.ok artifact.types.length, registry.pushAll artifact.types) := by
  rw [load, hparse]
  dsimp only
  rw [perform_bind, perform_checkNew_new h hnew]
  dsimp only
  rw [perform_bind, perform_registerAll h hnew]
  rfl

theorem perform_load_repeated (h : registry.InStep) {artifact : Artifact}
    (hparse : Artifact.parse text = .ok artifact) {name : String}
    (hrepeated : registry.FirstRepeated artifact.types name) :
    registry.perform (load text) = (.error (.duplicate name), registry) := by
  rw [load, hparse]
  dsimp only
  rw [perform_bind, perform_checkNew_repeated h hrepeated]

theorem parse_of_types {types : List TypeDescriptor}
    (htypes : (Operation.load text).types = .ok types) :
    ∃ artifact, Artifact.parse text = .ok artifact ∧ artifact.types = types := by
  rw [Operation.types] at htypes
  cases hparse : Artifact.parse text with
  | error fault =>
      rw [hparse] at htypes
      cases htypes
  | ok artifact =>
      rw [hparse] at htypes
      exact ⟨artifact, rfl, Except.ok.inj htypes⟩

theorem parse_of_fault {fault : Json.Fault} (htypes : (Operation.load text).types = .error fault) :
    Artifact.parse text = .error fault := by
  rw [Operation.types] at htypes
  cases hparse : Artifact.parse text with
  | error other =>
      rw [hparse] at htypes
      cases htypes
      rfl
  | ok artifact =>
      rw [hparse] at htypes
      cases htypes

end Load

namespace Operation

variable {operation : Operation} {types : List TypeDescriptor}

theorem perform_fault {fault : Json.Fault} (htypes : operation.types = .error fault) :
    registry.perform operation.call = (.error (.load fault), registry) := by
  cases operation with
  | register type => cases htypes
  | load text =>
      rw [call, perform_discard, perform_load_fault (parse_of_fault htypes)]
      rfl

theorem perform_new (h : registry.InStep) (htypes : operation.types = .ok types)
    (hnew : (registry.namesWith types).Nodup) :
    registry.perform operation.call = (.ok (), registry.pushAll types) := by
  cases operation with
  | register type =>
      cases htypes
      rw [call, perform_discard, perform_register_new h (notMem_names hnew)]
      rfl
  | load text =>
      obtain ⟨artifact, hparse, rfl⟩ := parse_of_types htypes
      rw [call, perform_discard, perform_load_new h hparse hnew]
      rfl

theorem perform_repeated (h : registry.InStep) (htypes : operation.types = .ok types)
    {name : String} (hrepeated : registry.FirstRepeated types name) :
    registry.perform operation.call = (.error (.duplicate name), registry) := by
  cases operation with
  | register type =>
      cases htypes
      obtain ⟨before, other, after, hsplit, rfl, -, hmem⟩ := hrepeated
      obtain ⟨rfl, hother⟩ | ⟨-, hother⟩ := List.append_eq_singleton_iff.mp hsplit.symm
      · obtain rfl := List.head_eq_of_cons_eq hother
        rw [namesWith_nil] at hmem
        rw [call, perform_discard, perform_register, (h.contains_iff _).mpr hmem]
        rfl
      · cases hother
  | load text =>
      obtain ⟨artifact, hparse, rfl⟩ := parse_of_types htypes
      rw [call, perform_discard, perform_load_repeated h hparse hrepeated]
      rfl

-- The types that a call brings if it succeeds.
def added (registry : Registry) (operation : Operation) : List TypeDescriptor :=
  match (registry.perform operation.call).1, operation.types with
  | .ok _, .ok types => types
  | _, _ => []

-- What a call does, by the types it is to bring.
theorem outcomes (h : registry.InStep) (operation : Operation) :
    (∃ fault, operation.types = .error fault ∧
      registry.perform operation.call = (.error (.load fault), registry)) ∨
    (∃ types, operation.types = .ok types ∧ (registry.namesWith types).Nodup ∧
      registry.perform operation.call = (.ok (), registry.pushAll types)) ∨
    ∃ types name, operation.types = .ok types ∧ registry.FirstRepeated types name ∧
      registry.perform operation.call = (.error (.duplicate name), registry) := by
  cases htypes : operation.types with
  | error fault => exact .inl ⟨fault, rfl, perform_fault htypes⟩
  | ok types =>
      by_cases hnew : (registry.namesWith types).Nodup
      · exact .inr (.inl ⟨types, rfl, hnew, perform_new h htypes hnew⟩)
      · obtain ⟨name, hrepeated⟩ := exists_firstRepeated h.nodup hnew
        exact .inr (.inr ⟨types, name, rfl, hrepeated, perform_repeated h htypes hrepeated⟩)

theorem inStep_perform (h : registry.InStep) (operation : Operation) :
    (registry.perform operation.call).2.InStep := by
  obtain ⟨fault, -, hcall⟩ | ⟨types, -, hnew, hcall⟩ | ⟨types, name, -, -, hcall⟩ :=
    operation.outcomes h
  · rwa [hcall]
  · rw [hcall]
    exact h.pushAll hnew
  · rwa [hcall]

theorem types_perform (h : registry.InStep) (operation : Operation) :
    (registry.perform operation.call).2.types = registry.types ++ operation.added registry := by
  rw [added]
  obtain ⟨fault, htypes, hcall⟩ | ⟨types, htypes, -, hcall⟩ | ⟨types, name, htypes, -, hcall⟩ :=
    operation.outcomes h
  · rw [hcall, htypes]
    exact (List.append_nil _).symm
  · rw [hcall, htypes]
    exact registry.types_pushAll types
  · rw [hcall, htypes]
    exact (List.append_nil _).symm

theorem perform_eq_self (h : registry.InStep) {error : RegistryError}
    (hfailed : (registry.perform operation.call).1 = .error error) :
    (registry.perform operation.call).2 = registry := by
  obtain ⟨fault, -, hcall⟩ | ⟨types, -, -, hcall⟩ | ⟨types, name, -, -, hcall⟩ :=
    operation.outcomes h
  · rw [hcall]
  · rw [hcall] at hfailed
    cases hfailed
  · rw [hcall]

theorem perform_eq_duplicate (h : registry.InStep) {name : String} :
    (registry.perform operation.call).1 = .error (.duplicate name) ↔
      ∃ types, operation.types = .ok types ∧ registry.FirstRepeated types name := by
  constructor
  · intro hfailed
    obtain ⟨fault, -, hcall⟩ | ⟨types, -, -, hcall⟩ | ⟨types, other, htypes, hrepeated, hcall⟩ :=
      operation.outcomes h
    · rw [hcall] at hfailed
      cases hfailed
    · rw [hcall] at hfailed
      cases hfailed
    · rw [hcall] at hfailed
      cases hfailed
      exact ⟨types, htypes, hrepeated⟩
  · rintro ⟨types, htypes, hrepeated⟩
    rw [perform_repeated h htypes hrepeated]

theorem perform_eq_load (h : registry.InStep) {fault : Json.Fault} :
    (registry.perform operation.call).1 = .error (.load fault) ↔
      operation.types = .error fault := by
  constructor
  · intro hfailed
    obtain ⟨other, htypes, hcall⟩ | ⟨types, -, -, hcall⟩ | ⟨types, name, -, -, hcall⟩ :=
      operation.outcomes h
    · rw [hcall] at hfailed
      cases hfailed
      exact htypes
    · rw [hcall] at hfailed
      cases hfailed
    · rw [hcall] at hfailed
      cases hfailed
  · intro htypes
    rw [perform_fault htypes]

end Operation

-- The registry after some calls on one that has been empty.
def after (operations : List Operation) : Registry :=
  operations.foldl (fun registry operation => (registry.perform operation.call).2) empty

-- The types of the calls that succeed one after another.
def registered (registry : Registry) : List Operation → List TypeDescriptor
  | [] => []
  | operation :: operations =>
    operation.added registry ++ registered (registry.perform operation.call).2 operations

theorem foldl_perform (h : registry.InStep) (operations : List Operation) :
    (operations.foldl (fun registry operation => (registry.perform operation.call).2)
        registry).InStep ∧
      (operations.foldl (fun registry operation => (registry.perform operation.call).2)
        registry).types = registry.types ++ registry.registered operations := by
  induction operations generalizing registry with
  | nil => exact ⟨h, (List.append_nil _).symm⟩
  | cons operation operations ih =>
      obtain ⟨hinStep, htypes⟩ := ih (operation.inStep_perform h)
      rw [List.foldl_cons]
      refine ⟨hinStep, ?_⟩
      rw [htypes, operation.types_perform h, List.append_assoc]
      rfl

theorem inStep_after (operations : List Operation) : (after operations).InStep :=
  (foldl_perform inStep_empty operations).1

theorem types_after (operations : List Operation) :
    (after operations).types = empty.registered operations :=
  (foldl_perform inStep_empty operations).2

-- After any calls all ways to look at a registry agree: it holds the types of the calls that have
-- succeeded, no two of one name. The next call changes nothing if it fails, and a repeated name is
-- what it fails with just if a type that it brings is the first to repeat this name.
theorem after_agrees (operations : List Operation) :
    (after operations).types = empty.registered operations ∧
    (after operations).names.Nodup ∧
    (∀ (name : String) (position : Nat), (after operations).positions[name]? = some position ↔
      (after operations).names[position]? = some name) ∧
    (∀ name, (after operations).find? name =
      (empty.registered operations).find? (·.qualifiedName == name)) ∧
    (∀ name, (after operations).contains name = true ↔ name ∈ (after operations).names) ∧
    (after operations).size = (empty.registered operations).length ∧
    ∀ operation : Operation,
      (∀ error, ((after operations).perform operation.call).1 = .error error →
        ((after operations).perform operation.call).2 = after operations) ∧
      (∀ name, ((after operations).perform operation.call).1 = .error (.duplicate name) ↔
        ∃ types, operation.types = .ok types ∧ (after operations).FirstRepeated types name) ∧
      ∀ fault, ((after operations).perform operation.call).1 = .error (.load fault) ↔
        operation.types = .error fault := by
  have h := inStep_after operations
  have htypes := types_after operations
  refine ⟨htypes, h.nodup, h, fun name => ?_, h.contains_iff, congrArg List.length htypes,
    fun operation => ⟨fun error => Operation.perform_eq_self h, fun name =>
      Operation.perform_eq_duplicate h, fun fault => Operation.perform_eq_load h⟩⟩
  rw [h.find?_eq, htypes]

end Histories

end Registry

end Reflection
