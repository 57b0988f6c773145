import Mathlib.Data.List.Basic
import Reflection.Invocation
import Reflection.Proofs.Settings.Rendering

namespace Reflection

def Flag.standardName? : Flag → Option String
  | standard name => some name
  | _ => none

namespace Settings

section Asked

variable {settings later : Settings} {names more : List String}

-- The standards that a command line asks for.
def standards (items : List String) : List String :=
  (Flag.ofItems items).filterMap Flag.standardName?

def isDialect (name : String) : Bool := "gnu".toList.isPrefixOf name.toList

-- What settings keep of the standards that were asked for, in this order.
structure AskedFor (settings : Settings) (names : List String) : Prop where
  standard : settings.standard = names.getLast?.map (replaceFirst "gnu" "c")
  extensions : settings.gnuExtensions = names.any isDialect

theorem AskedFor.merge (h : settings.AskedFor names) (hlater : later.AskedFor more) :
    (settings.merge later).AskedFor (names ++ more) := by
  refine ⟨?_, ?_⟩
  · rw [Settings.merge, hlater.standard, h.standard, List.getLast?_append, Option.map_or]
  · rw [Settings.merge, hlater.extensions, h.extensions, List.any_append]

theorem askedFor_apply (base : Path) (flag : Flag) :
    (empty.apply base flag).AskedFor flag.standardName?.toList := by
  cases flag with
  | standard name =>
      refine ⟨rfl, ?_⟩
      simp [apply, setStandard, empty, Flag.standardName?, isDialect]
  | _ => exact ⟨rfl, rfl⟩

theorem askedFor_foldl (base : Path) (flags : List Flag) :
    (flags.foldl (apply base) empty).AskedFor (flags.filterMap Flag.standardName?) := by
  induction flags with
  | nil => exact ⟨rfl, rfl⟩
  | cons flag flags ih =>
      have hnames : (flag :: flags).filterMap Flag.standardName? =
          flag.standardName?.toList ++ flags.filterMap Flag.standardName? := by
        cases hname : flag.standardName? with
        | none => rw [List.filterMap_cons_none hname, Option.toList_none, List.nil_append]
        | some name =>
            rw [List.filterMap_cons_some hname, Option.toList_some, List.singleton_append]
      rw [List.foldl_cons, foldl_apply, hnames]
      exact (askedFor_apply base flag).merge ih

theorem askedFor_applyAll (base : Path) (items : List String) :
    (empty.applyAll base items).AskedFor (standards items) :=
  askedFor_foldl base (Flag.ofItems items)

-- On the command line of the generator a standard is an option, given at most once.
theorem askedFor_arguments {arguments : SettingsArguments} (h : arguments.gnuExtensions = false) :
    arguments.settings.AskedFor arguments.standard.toList := by
  unfold SettingsArguments.settings
  cases arguments.standard with
  | none => exact ⟨rfl, h⟩
  | some name =>
      have hname := askedFor_apply ⟨""⟩ (.standard name)
      refine ⟨hname.standard, ?_⟩
      dsimp only
      rw [h, Bool.or_false]
      exact hname.extensions

end Asked

section Written

variable {settings : Settings} {names : List String} {last : String}

def isStandardFlag (flag : String) : Bool := "-std=".toList.isPrefixOf flag.toList

-- The flags among those written that name a standard.
def writtenStandards (settings : Settings) : List String := settings.toFlags.filter isStandardFlag

theorem writtenStandards_eq (settings : Settings) :
    settings.writtenStandards = settings.standardFlag := by
  have hstandard : ∀ flag ∈ settings.standardFlag, isStandardFlag flag = true := by
    intro flag hmem
    unfold standardFlag at hmem
    split at hmem
    · cases hmem
    · rw [List.mem_singleton.mp hmem, isStandardFlag, String.toList_append]
      exact List.isPrefixOf_iff_prefix.mpr (List.prefix_append _ _)
  have hdirective (directive : Directive) : isStandardFlag directive.toFlag = false := by
    unfold isStandardFlag Directive.toFlag
    split <;> simp only [String.toList_append, List.append_assoc] <;> rfl
  have hother : ∀ flag ∈ settings.otherFlags, isStandardFlag flag = false := by
    simp only [otherFlags, switchFlags, List.forall_mem_append, List.forall_mem_map]
    refine ⟨fun directory _ => ?_, fun directive _ => hdirective directive, fun name _ => ?_, ?_⟩
    · rw [isStandardFlag, String.toList_append]
      rfl
    · rw [isStandardFlag, String.toList_append]
      rfl
    · cases settings.msExtensions <;> cases settings.msCompatibility <;> decide
  rw [writtenStandards, toFlags_eq, List.filter_append, List.filter_eq_self.mpr hstandard,
    List.filter_eq_nil_iff.mpr fun flag hmem => by simp [hother flag hmem], List.append_nil]

-- The flags that are written name the last standard, and no other.
def WritesLast (settings : Settings) (names : List String) : Prop :=
  settings.writtenStandards = names.getLast?.toList.map ("-std=" ++ ·)

-- The last standard is a dialect, if there is one or its name holds that of one.
def EndsInDialect (names : List String) : Prop :=
  ∀ last ∈ names.getLast?,
    (∃ name ∈ names, isDialect name = true) ∨ "gnu".toList <:+: last.toList → isDialect last = true

-- A standard of C++ or its dialect, of any version.
def IsCpp (name : String) : Prop := ∃ version, name = "c++" ++ version ∨ name = "gnu++" ++ version

theorem cpp_prefix_replaceFirst {name : String} (h : "c++".toList <+: name.toList) :
    "c++".toList <+: (replaceFirst "gnu" "c" name).toList := by
  rw [toList_replaceFirst]
  obtain ⟨_, hsame⟩ | ⟨front, behind, htext, _, hreplaced⟩ :=
    Text.replaceFirst_cases "gnu".toList "c".toList name.toList
  · rwa [hsame]
  · rw [hreplaced]
    rw [htext] at h
    match front with
    | [] => simp at h
    | [first] => simp at h
    | [first, second] => simp at h
    | first :: second :: third :: front => simpa using h

-- A dialect is stored under the name of its standard, and written under its own.
theorem replaceFirst_dialect (version : String) :
    replaceFirst "c++" "gnu++" (replaceFirst "gnu" "c" ("gnu++" ++ version)) =
      "gnu++" ++ version := by
  have hstored : replaceFirst "gnu" "c" ("gnu++" ++ version) = "c++" ++ version := by
    rw [← String.toList_inj, toList_replaceFirst, String.toList_append, String.toList_append]
    exact Text.replaceFirst_append "gnu".toList "c".toList ("++".toList ++ version.toList)
  rw [hstored, ← String.toList_inj, toList_replaceFirst, String.toList_append,
    Text.replaceFirst_append, String.toList_append]

-- A standard that is no dialect is not written as it was given once there was a dialect.
theorem replaceFirst_cpp_ne (version : String) :
    replaceFirst "c++" "gnu++" (replaceFirst "gnu" "c" ("c++" ++ version)) ≠ "c++" ++ version := by
  intro hsame
  have hcpp : "c++".toList <+: ("c++" ++ version).toList := by
    rw [String.toList_append]
    exact List.prefix_append _ _
  have hplain := not_gnu_prefix ("c++" ++ version)
  have hdialect := (gnu_prefix_iff hplain).mpr (cpp_prefix_replaceFirst hcpp)
  rw [hsame, String.toList_append] at hdialect
  simp at hdialect

theorem AskedFor.writesLast_iff (h : settings.AskedFor names) (hcpp : ∀ name ∈ names, IsCpp name) :
    settings.WritesLast names ↔ EndsInDialect names := by
  unfold WritesLast EndsInDialect
  rw [writtenStandards_eq, standardFlag, h.standard, h.extensions]
  cases hlast : names.getLast? with
  | none => simp
  | some last =>
      have hmem := List.mem_of_getLast? hlast
      simp only [Option.map_some, Option.toList_some, List.map_cons, List.map_nil, List.cons.injEq,
        and_true, Option.mem_some_iff, forall_eq', String.append_right_inj]
      obtain ⟨version, rfl | rfl⟩ := hcpp last hmem
      · have hstandard : isDialect ("c++" ++ version) = false := by
          rw [isDialect, String.toList_append]
          rfl
        rw [hstandard]
        by_cases hany : names.any isDialect = true
        · rw [if_pos hany]
          refine iff_of_false (replaceFirst_cpp_ne version) fun hends => ?_
          exact Bool.false_ne_true (hends (.inl (List.any_eq_true.mp hany)))
        · rw [if_neg hany, replaceFirst_gnu_eq_self_iff]
          have hnone : ¬∃ name ∈ names, isDialect name = true := by
            rwa [← List.any_eq_true]
          simp [hnone]
      · have hdialect : isDialect ("gnu++" ++ version) = true := by
          rw [isDialect, String.toList_append]
          rfl
        rw [if_pos (List.any_eq_true.mpr ⟨_, hmem, hdialect⟩)]
        exact iff_of_true (replaceFirst_dialect version) fun _ => hdialect

-- However the flags are shared out, to one command line, to two, or to a database entry and the
-- options of the generator, the last standard of C++ is written as it was given exactly if it is
-- a dialect or there is nothing of one.
theorem writesLast_applyAll_iff {items : List String}
    (hcpp : ∀ name ∈ standards items, IsCpp name) (base other : Path) :
    ((empty.applyAll base items).WritesLast (standards items) ↔ EndsInDialect (standards items)) ∧
      (∀ first second, standards first ++ standards second = standards items →
        (((empty.applyAll base first).merge (empty.applyAll other second)).WritesLast
          (standards items) ↔ EndsInDialect (standards items))) ∧
      ∀ first (arguments : SettingsArguments), arguments.gnuExtensions = false →
        standards first ++ arguments.standard.toList = standards items →
        (((empty.applyAll base first).merge arguments.settings).WritesLast (standards items) ↔
          EndsInDialect (standards items)) := by
  refine ⟨(askedFor_applyAll base items).writesLast_iff hcpp, ?_, ?_⟩
  · intro first second hshared
    have hasked := (askedFor_applyAll base first).merge (askedFor_applyAll other second)
    exact (hshared ▸ hasked).writesLast_iff hcpp
  · intro first arguments hextensions hshared
    have hasked := (askedFor_applyAll base first).merge (askedFor_arguments hextensions)
    exact (hshared ▸ hasked).writesLast_iff hcpp

-- A standard, a flag without setting, and a dialect.
theorem writesLast_applyAll_dialect :
    (∀ name ∈ standards ["-std=c++11", "-c", "-std=gnu++17"], IsCpp name) ∧
      (empty.applyAll ⟨"."⟩ ["-std=c++11", "-c", "-std=gnu++17"]).writtenStandards =
        ["-std=gnu++17"] ∧
      ((empty.applyAll ⟨"."⟩ ["-std=c++11"]).merge
        (empty.applyAll ⟨"b"⟩ ["-c", "-std=gnu++17"])).writtenStandards = ["-std=gnu++17"] := by
  have hstandards : standards ["-std=c++11", "-c", "-std=gnu++17"] = ["c++11", "gnu++17"] := by
    decide
  have hcpp : ∀ name ∈ standards ["-std=c++11", "-c", "-std=gnu++17"], IsCpp name := by
    rw [hstandards]
    simp only [List.forall_mem_cons]
    exact ⟨⟨"11", .inl rfl⟩, ⟨"17", .inr rfl⟩, nofun⟩
  have hends : EndsInDialect (standards ["-std=c++11", "-c", "-std=gnu++17"]) := by
    rw [hstandards]
    intro last hlast _
    obtain rfl : "gnu++17" = last := Option.some.inj hlast
    decide
  have hwrites := writesLast_applyAll_iff hcpp ⟨"."⟩ ⟨"b"⟩
  exact ⟨hcpp, hwrites.1.mpr hends, (hwrites.2.1 _ _ (by decide)).mpr hends⟩

-- A standard behind a dialect is written as a dialect that was never given.
theorem not_writesLast_strict :
    (∀ name ∈ standards ["-std=gnu++17", "-std=c++20"], IsCpp name) ∧
      (standards ["-std=gnu++17", "-std=c++20"]).getLast? = some "c++20" ∧
      (empty.applyAll ⟨"."⟩ ["-std=gnu++17", "-std=c++20"]).writtenStandards = ["-std=gnu++20"] ∧
      ((empty.applyAll ⟨"."⟩ ["-std=gnu++17"]).merge
        (empty.applyAll ⟨"."⟩ ["-std=c++20"])).writtenStandards = ["-std=gnu++20"] := by
  have hstandards : standards ["-std=gnu++17", "-std=c++20"] = ["gnu++17", "c++20"] := by decide
  refine ⟨?_, by decide, by decide, by decide⟩
  rw [hstandards]
  simp only [List.forall_mem_cons]
  exact ⟨⟨"17", .inr rfl⟩, ⟨"20", .inl rfl⟩, nofun⟩

end Written

end Settings

end Reflection
