import Reflection.Generation
import Reflection.Proofs.Descriptor.Reload
import Reflection.Proofs.Registry.Histories
import Reflection.Proofs.Selection.Members

namespace Reflection

namespace Registry

variable {registry : Registry} {types : List TypeDescriptor}

theorem InStep.namesWith_nodup (h : registry.InStep)
    (hdistinct : (types.map (·.qualifiedName)).Nodup)
    (hnew : ∀ type ∈ types, type.qualifiedName ∉ registry.names) :
    (registry.namesWith types).Nodup := by
  refine List.nodup_append.mpr ⟨h.nodup, hdistinct, fun old hold name hname heq => ?_⟩
  obtain ⟨type, hmem, rfl⟩ := List.mem_map.mp hname
  exact hnew type hmem (heq ▸ hold)

theorem InStep.firstRepeated_head (h : registry.InStep) {type : TypeDescriptor}
    (hmem : type.qualifiedName ∈ registry.names) (others : List TypeDescriptor) :
    registry.FirstRepeated (type :: others) type.qualifiedName := by
  refine ⟨[], type, others, rfl, rfl, ?_, ?_⟩
  · exact registry.namesWith_nil.symm ▸ h.nodup
  · exact registry.namesWith_nil.symm ▸ hmem

-- Once the types of an artifact are registered, the first of them keeps the artifact out.
theorem InStep.perform_load_again (h : registry.InStep) {text : List Char} {artifact : Artifact}
    (hparse : Artifact.parse text = .ok artifact)
    (hnew : (registry.namesWith artifact.types).Nodup) {first : TypeDescriptor}
    {others : List TypeDescriptor} (htypes : artifact.types = first :: others) :
    (registry.pushAll artifact.types).perform (load text) =
      (.error (.duplicate first.qualifiedName), registry.pushAll artifact.types) := by
  have hmem : first.qualifiedName ∈ (registry.pushAll artifact.types).names := by
    rw [names_pushAll, namesWith, htypes]
    exact List.mem_append_right _ (.head _)
  have hrepeated := (h.pushAll hnew).firstRepeated_head hmem others
  exact perform_load_repeated (h.pushAll hnew) hparse (htypes ▸ hrepeated)

theorem names_after_register (type : TypeDescriptor) :
    (after [.register type]).names = [type.qualifiedName] := by
  have hnew : (empty.namesWith [type]).Nodup := List.nodup_singleton _
  rw [after, List.foldl_cons, Operation.perform_new inStep_empty rfl hnew]
  rfl

end Registry

section Generated

variable {source text output : String} {options : SelectionOptions}

theorem generateFromText_json (h : generateFromText source text options .json = .ok output) :
    ∃ parsed selected, Header.parse .tolerant text.toList = .ok parsed ∧
      (parsed.tree.select options).outcome = .ok selected ∧
      output = String.ofList (Artifact.renderJson ⟨source, none, selected.types⟩) := by
  unfold generateFromText at h
  cases hparse : Header.parse .tolerant text.toList with
  | error error =>
      rw [hparse] at h
      cases h
  | ok parsed =>
      rw [hparse] at h
      dsimp only at h
      cases hselect : (parsed.tree.select options).outcome with
      | error findings =>
          rw [hselect] at h
          cases h
      | ok selected =>
          rw [hselect] at h
          exact ⟨parsed, selected, rfl, hselect, (Except.ok.inj h).symm⟩

-- What is generated from a header in JSON loads into every registry that holds none of its names:
-- all types that have been selected come after the old ones, in their order and as they were
-- described. A second time the first of them keeps it out.
theorem load_generated (h : generateFromText source text options .json = .ok output) :
    ∃ parsed selected, Header.parse .tolerant text.toList = .ok parsed ∧
      (parsed.tree.select options).outcome = .ok selected ∧
      ∀ operations, (∀ type ∈ selected.types,
          type.qualifiedName ∉ (Registry.after operations).names) →
        ∃ loaded, (Registry.after operations).perform (Registry.load output.toList) =
            (.ok selected.types.length, loaded) ∧
          loaded.types = (Registry.after operations).types ++ selected.types ∧
          (∀ type ∈ selected.types, loaded.find? type.qualifiedName = some type) ∧
          ∀ first others, selected.types = first :: others →
            loaded.perform (Registry.load output.toList) =
              (.error (.duplicate first.qualifiedName), loaded) := by
  obtain ⟨parsed, selected, hparsed, hselected, rfl⟩ := generateFromText_json h
  refine ⟨parsed, selected, hparsed, hselected, fun operations hnew => ?_⟩
  have hinStep := Registry.inStep_after operations
  have hnodup := hinStep.namesWith_nodup (qualifiedNames_nodup hselected) hnew
  have hread : Artifact.parse (String.ofList
      (Artifact.renderJson ⟨source, none, selected.types⟩)).toList =
        .ok ⟨source, none, selected.types⟩ := by
    rw [String.toList_ofList]
    exact Artifact.parse_renderJson _
  have htypes := (Registry.after operations).types_pushAll selected.types
  refine ⟨(Registry.after operations).pushAll selected.types,
    Registry.perform_load_new hinStep hread hnodup, htypes, fun type hmem => ?_,
    fun first others hfirst => hinStep.perform_load_again hread hnodup hfirst⟩
  refine (hinStep.pushAll hnodup).find?_of_mem ?_
  rw [htypes]
  exact List.mem_append_right _ hmem

def pairHeader : String :=
  "namespace T \x7b struct [[refl]] A \x7b int x; \x7d; enum class [[refl]] B \x7b X \x7d; \x7d"

theorem pairHeader_names : (Header.parse .tolerant pairHeader.toList).toOption.bind (fun parsed =>
    (parsed.tree.select .default).outcome.toOption.map fun selected =>
      selected.types.map (·.qualifiedName)) = some ["T::A", "T::B"] := by
  decide +kernel

-- Two types come after one that has been registered, and a second time they do not.
theorem load_generated_pair :
    ∃ output loaded, generateFromText "pair.hpp" pairHeader .default .json = .ok output ∧
      (Registry.after [.register ⟨"T::C", [], .enumBody []⟩]).perform
          (Registry.load output.toList) = (.ok 2, loaded) ∧
      loaded.names = ["T::C", "T::A", "T::B"] ∧
      loaded.perform (Registry.load output.toList) = (.error (.duplicate "T::A"), loaded) := by
  obtain ⟨output, houtput⟩ := exists_ok_of_isSome
    (show (generateFromText "pair.hpp" pairHeader .default .json).toOption.isSome by decide +kernel)
  obtain ⟨parsed, selected, hparsed, hselected, hload⟩ := load_generated houtput
  have hselection : selected.types.map (·.qualifiedName) = ["T::A", "T::B"] := by
    have hnames := pairHeader_names
    rw [hparsed] at hnames
    simpa only [Except.toOption, Option.bind_some, hselected, Option.map_some,
      Option.some.injEq] using hnames
  have hregistered := Registry.names_after_register ⟨"T::C", [], .enumBody []⟩
  obtain ⟨loaded, hperform, htypes, -, hagain⟩ := hload [.register ⟨"T::C", [], .enumBody []⟩] (by
    rw [hregistered]
    refine fun type hmem hname => ?_
    have hnew : type.qualifiedName ∈ selected.types.map (·.qualifiedName) :=
      List.mem_map_of_mem hmem
    rw [hselection, List.mem_singleton.mp hname] at hnew
    exact absurd hnew (by decide))
  refine ⟨output, loaded, houtput, ?_, ?_, ?_⟩
  · rw [hperform, ← List.length_map (·.qualifiedName), hselection]
    rfl
  · rw [Registry.names, htypes, List.map_append, hselection]
    exact congrArg (· ++ _) hregistered
  · obtain ⟨first, others, hfirst, hname, -⟩ := List.map_eq_cons_iff.mp hselection
    rw [hagain first others hfirst, hname]

end Generated

end Reflection
