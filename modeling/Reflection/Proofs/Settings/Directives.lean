import Mathlib.Data.List.Basic
import Reflection.CommandLine

namespace Reflection

namespace Directive

variable {macros : Header.Macros} {directives : List Directive} {name : String}

-- What a directive makes of a name, if it is about that name: its replacement, or that it has none.
def effect? (name : String) : Directive → Option (Option String)
  | define other replacement =>
    if other = name ∧ '(' ∉ name.toList then some (some (replacement.getD "1")) else none
  | undefine other => if other = name then some none else none

def isDefinition : Directive → Bool
  | define _ _ => true
  | undefine _ => false

theorem lookup_cons (entry : String × String) (macros : Header.Macros) (name : String) :
    Header.Macros.lookup (entry :: macros) name.toList =
      if entry.1 = name then some entry.2.toList else macros.lookup name.toList := by
  by_cases h : entry.1 = name
  · simp [Header.Macros.lookup, h]
  · simp [Header.Macros.lookup, h, String.toList_inj]

theorem lookup_filter_ne (macros : Header.Macros) (removed name : String) :
    Header.Macros.lookup (macros.filter (·.1 ≠ removed)) name.toList =
      if removed = name then none else macros.lookup name.toList := by
  induction macros with
  | nil => simp [Header.Macros.lookup]
  | cons entry macros ih =>
      by_cases hremoved : entry.1 = removed
      · rw [List.filter_cons_of_neg (by simpa using hremoved), ih, lookup_cons, hremoved]
        split <;> rfl
      · rw [List.filter_cons_of_pos (by simpa using hremoved), lookup_cons, lookup_cons, ih]
        by_cases hname : removed = name
        · subst hname
          rw [if_neg hremoved, if_pos rfl, if_pos rfl]
        · rw [if_neg hname, if_neg hname]

theorem lookup_apply (macros : Header.Macros) (directive : Directive) (name : String) :
    (directive.apply macros).lookup name.toList =
      match directive.effect? name with
      | some replacement => replacement.map String.toList
      | none => macros.lookup name.toList := by
  cases directive with
  | undefine other =>
      rw [apply, lookup_filter_ne, effect?]
      by_cases hother : other = name
      · rw [if_pos hother, if_pos hother]
        rfl
      · rw [if_neg hother, if_neg hother]
  | define other replacement =>
      rw [apply, effect?]
      by_cases hother : other = name
      · subst hother
        by_cases hparen : '(' ∈ other.toList
        · simp [hparen]
        · simp [hparen, lookup_cons]
      · by_cases hparen : '(' ∈ other.toList
        · simp [hparen, hother]
        · rw [if_neg (by simpa using hparen), lookup_cons, lookup_filter_ne]
          simp [hother]

-- Of the directives about a name the last one counts.
theorem lookup_foldl_apply (macros : Header.Macros) (directives : List Directive) (name : String) :
    (directives.foldl apply macros).lookup name.toList =
      match (directives.filterMap (effect? name)).getLast? with
      | some replacement => replacement.map String.toList
      | none => macros.lookup name.toList := by
  induction directives generalizing macros with
  | nil => rfl
  | cons directive directives ih =>
      rw [List.foldl_cons, ih, lookup_apply]
      cases heffect : directive.effect? name with
      | none => rw [List.filterMap_cons_none heffect]
      | some replacement =>
          rw [List.filterMap_cons_some heffect, List.getLast?_cons]
          cases (directives.filterMap (effect? name)).getLast? <;> rfl

theorem effect?_eq_some_none {directive : Directive} :
    directive.effect? name = some none ↔ directive = undefine name := by
  cases directive with
  | define other replacement => simp [effect?]
  | undefine other => simp [effect?]

theorem isDefinition_of_effect? {directive : Directive} {replacement : String}
    (h : directive.effect? name = some (some replacement)) : directive.isDefinition = true := by
  cases directive with
  | define other replacement => rfl
  | undefine other => simp [effect?] at h

-- The definitions, and behind them the undefinitions.
def sorted (directives : List Directive) : List Directive :=
  directives.filter isDefinition ++ directives.filter (!·.isDefinition)

-- A name that is undefined anywhere is undefined in the end.
theorem getLast?_sorted_of_mem (h : undefine name ∈ directives) :
    ((sorted directives).filterMap (effect? name)).getLast? = some none := by
  have hmem : none ∈ (directives.filter (!·.isDefinition)).filterMap (effect? name) :=
    List.mem_filterMap.mpr ⟨undefine name, List.mem_filter.mpr ⟨h, rfl⟩, by simp [effect?]⟩
  have hall : ∀ effect ∈ (directives.filter (!·.isDefinition)).filterMap (effect? name),
      effect = none := by
    intro effect heffect
    obtain ⟨directive, hdirective, heffect⟩ := List.mem_filterMap.mp heffect
    cases effect with
    | none => rfl
    | some replacement =>
        have hdefinition := isDefinition_of_effect? heffect
        simp [hdefinition] at hdirective
  rw [sorted, List.filterMap_append, List.getLast?_append]
  cases hlast : ((directives.filter (!·.isDefinition)).filterMap (effect? name)).getLast? with
  | none =>
      rw [List.getLast?_eq_none_iff.mp hlast] at hmem
      cases hmem
  | some effect => rw [Option.some_or, hall effect (List.mem_of_getLast? hlast)]

-- For any other name the order of the directives is kept.
theorem filterMap_sorted_of_notMem (h : undefine name ∉ directives) :
    (sorted directives).filterMap (effect? name) = directives.filterMap (effect? name) := by
  have hundefinitions : (directives.filter (!·.isDefinition)).filterMap (effect? name) = [] := by
    refine List.filterMap_eq_nil_iff.mpr fun directive hmem => ?_
    obtain ⟨hmem, hkind⟩ := List.mem_filter.mp hmem
    cases heffect : directive.effect? name with
    | none => rfl
    | some effect =>
        cases effect with
        | none => exact absurd (effect?_eq_some_none.mp heffect ▸ hmem) h
        | some replacement => simp [isDefinition_of_effect? heffect] at hkind
  rw [sorted, List.filterMap_append, hundefinitions, List.append_nil, List.filterMap_filter]
  refine List.filterMap_congr fun directive hmem => ?_
  cases heffect : directive.effect? name with
  | none => exact ite_self _
  | some effect =>
      cases effect with
      | none => exact absurd (effect?_eq_some_none.mp heffect ▸ hmem) h
      | some replacement => rw [if_pos (isDefinition_of_effect? heffect)]

end Directive

namespace Invocation

open Arguments Directive

def directive? : Key × String → Option Directive
  | (.define, value) => some (.ofDefinition value)
  | (.undefine, value) => some (.ofUndefinition value)
  | _ => none

-- The directives of a command line as they are given.
def directivesInOrder (given : Given Key) : List Directive := given.options.filterMap directive?

theorem isDefinition_ofDefinition (definition : String) :
    (ofDefinition definition).isDefinition = true := by
  unfold ofDefinition
  split <;> rfl

theorem filter_isDefinition (given : Given Key) :
    (directivesInOrder given).filter isDefinition = (given.values .define).map ofDefinition := by
  unfold directivesInOrder Given.values
  induction given.options with
  | nil => rfl
  | cons option options ih =>
      obtain ⟨key, value⟩ := option
      cases key with
      | define => simpa [directive?, isDefinition_ofDefinition] using ih
      | undefine => simpa [directive?, ofUndefinition, isDefinition] using ih
      | _ => exact ih

theorem filter_not_isDefinition (given : Given Key) :
    (directivesInOrder given).filter (!·.isDefinition) =
      (given.values .undefine).map ofUndefinition := by
  unfold directivesInOrder Given.values
  induction given.options with
  | nil => rfl
  | cons option options ih =>
      obtain ⟨key, value⟩ := option
      cases key with
      | define => simpa [directive?, isDefinition_ofDefinition] using ih
      | undefine => simpa [directive?, ofUndefinition, isDefinition] using ih
      | _ => exact ih

theorem directives_eq_sorted {given : Given Key} {arguments : SettingsArguments}
    (h : settings given = .ok arguments) :
    arguments.directives = sorted (directivesInOrder given) := by
  unfold settings at h
  split at h
  · cases h
  · cases h
    rw [sorted, filter_isDefinition, filter_not_isDefinition]
    rfl

-- A header is read with the macros after the directives of the database entry and then those of
-- the command line as they are given.
def AppliesInOrder (mode : Header.ErrorMode) (entry : Settings) (given : Given Key)
    (arguments : SettingsArguments) : Prop :=
  ∀ name : String,
    (CommandLine.parsing mode (entry.merge arguments.settings)).macros.lookup name.toList =
      ((entry.directives ++ directivesInOrder given).foldl Directive.apply []).lookup name.toList

theorem appliesInOrder_iff (mode : Header.ErrorMode) (entry : Settings) {given : Given Key}
    {arguments : SettingsArguments} (h : settings given = .ok arguments) :
    AppliesInOrder mode entry given arguments ↔
      ∀ name, undefine name ∈ directivesInOrder given →
        ((directivesInOrder given).filterMap (effect? name)).getLast? = some none := by
  have hmacros : (CommandLine.parsing mode (entry.merge arguments.settings)).macros =
      (sorted (directivesInOrder given)).foldl Directive.apply
        (entry.directives.foldl Directive.apply []) := by
    rw [← directives_eq_sorted h, ← List.foldl_append]
    rfl
  unfold AppliesInOrder
  simp only [hmacros, List.foldl_append, lookup_foldl_apply]
  refine forall_congr' fun name => ?_
  by_cases hundefined : undefine name ∈ directivesInOrder given
  · have hlast : ((directivesInOrder given).filterMap (effect? name)).getLast? ≠ none := by
      rw [ne_eq, List.getLast?_eq_none_iff, List.filterMap_eq_nil_iff]
      intro hnone
      simpa [effect?] using hnone _ hundefined
    rw [getLast?_sorted_of_mem hundefined]
    cases heffect : ((directivesInOrder given).filterMap (effect? name)).getLast? with
    | none => exact absurd heffect hlast
    | some effect => cases effect <;> simp [hundefined]
  · rw [filterMap_sorted_of_notMem hundefined]
    simp [hundefined]

-- A macro that is defined, defined again and then undefined.
theorem appliesInOrder_undefined_last :
    ∃ given arguments,
      dumpGrammar.read none .empty ["-DA=1", "-D", "B=2", "-UA", "a.hpp"] = .ok given ∧
        settings given = .ok arguments ∧ AppliesInOrder .tolerant .empty given arguments := by
  refine ⟨⟨[(.define, "A=1"), (.define, "B=2"), (.undefine, "A")], ["a.hpp"]⟩,
    ⟨none, none, none, [], ["A=1", "B=2"], ["A"], [], false, false, false⟩, rfl, rfl, ?_⟩
  refine (appliesInOrder_iff .tolerant .empty rfl).mpr fun name hmem => ?_
  have hmem : undefine name ∈ [define "A" "1", define "B" "2", undefine "A"] := hmem
  have hname : name = "A" := by simpa using hmem
  subst hname
  rfl

-- A macro that is undefined and defined again stays undefined.
theorem not_appliesInOrder_redefined :
    ∃ given arguments, dumpGrammar.read none .empty ["-UKEY", "-DKEY=struct", "a.hpp"] = .ok given ∧
      settings given = .ok arguments ∧ ¬AppliesInOrder .tolerant .empty given arguments := by
  refine ⟨⟨[(.undefine, "KEY"), (.define, "KEY=struct")], ["a.hpp"]⟩,
    ⟨none, none, none, [], ["KEY=struct"], ["KEY"], [], false, false, false⟩, rfl, rfl,
    fun h => ?_⟩
  have := h "KEY"
  revert this
  decide

end Invocation

end Reflection
