import Reflection.Proofs.Settings.Merging
import Reflection.Proofs.Text

namespace Reflection

namespace Flag

-- The argument that may stand apart is there, and is not empty.
def hasArgument : Flag → Bool
  | includeDir argument => argument ≠ ""
  | define argument => argument ≠ ""
  | undefine argument => argument ≠ ""
  | incomplete => false
  | _ => true

variable {item start argument name : String} {make : String → Flag}

theorem splitFlag?_append (h : (start, make) ∈ splitFlags) (argument : String) :
    splitFlag? (start ++ argument) = some (make, argument.toList) := by
  simp only [splitFlags, List.mem_cons, List.not_mem_nil, or_false, Prod.mk.injEq] at h
  obtain ⟨rfl, rfl⟩ | ⟨rfl, rfl⟩ | ⟨rfl, rfl⟩ := h
  all_goals
    rw [splitFlag?, splitFlags, String.toList_append]
    rfl

theorem spelled_attached (h : (start, make) ∈ splitFlags) (hargument : argument ≠ "") :
    Spelled [start ++ argument] (make argument) := by
  have hspelled := Spelled.attached (splitFlag?_append h argument)
    fun hnil => hargument (String.toList_eq_nil_iff.mp hnil)
  rwa [String.ofList_toList] at hspelled

theorem spelled_standard (name : String) : Spelled ["-std=" ++ name] (standard name) := by
  have hsplit : splitFlag? ("-std=" ++ name) = none := by
    rw [splitFlag?, splitFlags, String.toList_append]
    rfl
  have hitem : ofItem ("-std=" ++ name) = standard name := by
    rw [ofItem, String.toList_append, Text.after?_append]
    exact congrArg standard String.ofList_toList
  exact hitem ▸ .whole hsplit

theorem spelled_feature (h : ofItem ("-f" ++ name) = feature name) :
    Spelled ["-f" ++ name] (feature name) := by
  have hsplit : splitFlag? ("-f" ++ name) = none := by
    rw [splitFlag?, splitFlags, String.toList_append]
    rfl
  exact h ▸ .whole hsplit

-- A feature is not spelled like one of the switches.
theorem ofItem_feature (h : ofItem item = feature name) : ofItem ("-f" ++ name) = feature name := by
  have hitem : item = "-f" ++ name := by
    unfold ofItem at h
    iterate 3
      split at h
      · cases h
    split at h
    · next text htext =>
      rw [← feature.inj h]
      exact String.toList_inj.mp (by simpa using Text.eq_append_of_after? htext)
    · cases h
  exact hitem ▸ h

theorem Spelled.feature_eq {front : List String} (h : Spelled front (feature name)) :
    ofItem ("-f" ++ name) = feature name := by
  generalize hflag : feature name = flag at h
  cases h with
  | attached hsplit _ => obtain rfl | rfl | rfl := takesArgument_of_split hsplit <;> cases hflag
  | apart hsplit _ => obtain rfl | rfl | rfl := takesArgument_of_split hsplit <;> cases hflag
  | whole _ => exact hflag ▸ ofItem_feature hflag.symm

theorem feature_of_mem {items : List String} (h : feature name ∈ ofItems items) :
    ofItem ("-f" ++ name) = feature name := by
  induction items using items_induction with
  | nil => cases h
  | missing item make hsplit =>
      rw [ofItems_missing hsplit] at h
      cases List.mem_singleton.mp h
  | spelled front flag items hspelled ih =>
      rw [hspelled.ofItems_append] at h
      obtain rfl | hmem := List.mem_cons.mp h
      · exact hspelled.feature_eq
      · exact ih hmem

end Flag

namespace Directive

-- A name that a flag ends with is not empty.
def isNamed : Directive → Bool
  | define _ (some _) => true
  | define name none => name ≠ ""
  | undefine name => name ≠ ""

-- Names are trimmed, and that of a macro ends in front of the replacement.
def IsTrimmed : Directive → Prop
  | define name _ => trimmed name.toList = name ∧ '=' ∉ name.toList
  | undefine name => trimmed name.toList = name

def flag : Directive → Flag
  | define name (some replacement) => .define (name ++ "=" ++ replacement)
  | define name none => .define name
  | undefine name => .undefine name

variable {directive : Directive}

theorem trimmed_trimmed (name : List Char) : trimmed (trimmed name).toList = trimmed name := by
  rw [trimmed, trimmed, String.toList_ofList, Text.trim_trim]

theorem isTrimmed_ofDefinition (definition : String) : (ofDefinition definition).IsTrimmed := by
  have hname {name : List Char} (h : '=' ∉ name) : '=' ∉ (trimmed name).toList := by
    rw [trimmed, String.toList_ofList]
    exact fun hmem => h (Text.mem_of_mem_trim hmem)
  unfold ofDefinition
  split
  · next name replacement hsplit =>
    exact ⟨trimmed_trimmed name, hname (Text.notMem_of_splitOnce hsplit)⟩
  · next hsplit => exact ⟨trimmed_trimmed _, hname (Text.splitOnce_eq_none.mp hsplit)⟩

theorem isTrimmed_ofUndefinition (name : String) : (ofUndefinition name).IsTrimmed :=
  trimmed_trimmed name.toList

-- The flag of a directive says what the directive says.
theorem apply_flag (h : directive.IsTrimmed) (base : Path) (settings : Settings) :
    settings.apply base directive.flag = settings.direct directive := by
  cases directive with
  | define name replacement =>
      obtain ⟨htrimmed, hname⟩ := h
      cases replacement with
      | none =>
          have hsplit := Text.splitOnce_eq_none.mpr hname
          rw [flag, Settings.apply, ofDefinition, hsplit]
          exact congrArg (settings.direct <| define · none) htrimmed
      | some replacement =>
          have hsplit : Text.splitOnce '=' (name ++ "=" ++ replacement).toList =
              some (name.toList, replacement.toList) := by
            rw [String.toList_append, String.toList_append, List.append_assoc]
            exact Text.splitOnce_append hname replacement.toList
          rw [flag, Settings.apply, ofDefinition, hsplit]
          dsimp only
          rw [htrimmed, String.ofList_toList]
  | undefine name => exact congrArg (settings.direct <| undefine ·) h

theorem spelled_toFlag (h : directive.isNamed = true) :
    Flag.Spelled [directive.toFlag] directive.flag := by
  cases directive with
  | define name replacement =>
      cases replacement with
      | none => exact Flag.spelled_attached (by simp [Flag.splitFlags]) (of_decide_eq_true h)
      | some replacement =>
          have htext : toFlag (define name (some replacement)) =
              "-D" ++ (name ++ "=" ++ replacement) := by
            simp only [toFlag, String.append_assoc]
          rw [htext]
          exact Flag.spelled_attached (by simp [Flag.splitFlags]) (by simp)
  | undefine name =>
      exact Flag.spelled_attached (by simp [Flag.splitFlags]) (of_decide_eq_true h)

-- Without a name the flag waits for its argument.
theorem splitFlag?_toFlag (h : directive.isNamed = false) :
    ∃ make, Flag.splitFlag? directive.toFlag = some (make, []) := by
  cases directive with
  | define name replacement =>
      cases replacement with
      | none =>
          obtain rfl : name = "" := by simpa [isNamed] using h
          exact ⟨_, rfl⟩
      | some replacement => cases h
  | undefine name =>
      obtain rfl : name = "" := by simpa [isNamed] using h
      exact ⟨_, rfl⟩

end Directive

namespace Settings

section Standards

theorem toList_replaceFirst (wanted replacement text : String) :
    (replaceFirst wanted replacement text).toList =
      Text.replaceFirst wanted.toList replacement.toList text.toList := String.toList_ofList

-- The replacement starts differently, so the name of a dialect is never left at the start.
theorem not_gnu_prefix (name : String) :
    ¬"gnu".toList <+: (replaceFirst "gnu" "c" name).toList := by
  rw [toList_replaceFirst]
  obtain ⟨hnone, hsame⟩ | ⟨front, behind, htext, hfirst, hreplaced⟩ :=
    Text.replaceFirst_cases "gnu".toList "c".toList name.toList
  · rw [hsame]
    exact fun hprefix => hnone hprefix.isInfix
  · rw [hreplaced]
    rw [htext] at hfirst
    -- with three characters in front the text starts as the name does, and else not with `gnu`
    match front with
    | [] => simp
    | [first] => simp
    | [first, second] => simp
    | first :: second :: third :: front =>
        have hfirst := hfirst (by simp)
        simpa using hfirst

-- A standard gets the name of a dialect exactly if it is one of C++.
theorem gnu_prefix_iff {name : String} (h : ¬"gnu".toList <+: name.toList) :
    "gnu".toList <+: (replaceFirst "c++" "gnu++" name).toList ↔ "c++".toList <+: name.toList := by
  rw [toList_replaceFirst]
  constructor
  · intro hprefix
    obtain ⟨_, hsame⟩ | ⟨front, behind, htext, hfirst, hreplaced⟩ :=
      Text.replaceFirst_cases "c++".toList "gnu++".toList name.toList
    · exact absurd (hsame ▸ hprefix) h
    · rw [hreplaced] at hprefix
      rw [htext] at h ⊢
      match front with
      | [] => exact List.prefix_append _ _
      | [first] => simp at hprefix
      | [first, second] => simp at hprefix
      | first :: second :: third :: front => exact absurd (by simpa using hprefix) h
  · rintro ⟨behind, hbehind⟩
    rw [← hbehind, Text.replaceFirst_append]
    exact ⟨'+' :: '+' :: behind, rfl⟩

theorem replaceFirst_gnu_eq_self_iff {name : String} :
    replaceFirst "gnu" "c" name = name ↔ ¬"gnu".toList <:+: name.toList := by
  rw [← String.toList_inj, toList_replaceFirst]
  obtain ⟨hnone, hsame⟩ | ⟨front, behind, htext, _, hreplaced⟩ :=
    Text.replaceFirst_cases "gnu".toList "c".toList name.toList
  · simp only [hsame, hnone, not_false_eq_true]
  · have hinfix : "gnu".toList <:+: name.toList := htext ▸ ⟨front, behind, by simp⟩
    have hlength : (front ++ ("c".toList ++ behind)).length ≠ name.toList.length := by
      rw [htext]
      simp
    rw [hreplaced]
    exact iff_of_false (fun hsame => hlength (congrArg _ hsame)) (not_not_intro hinfix)

theorem replaceFirst_gnu_of_prefix {name : String} (h : "c++".toList <+: name.toList) :
    replaceFirst "gnu" "c" (replaceFirst "c++" "gnu++" name) = name := by
  obtain ⟨behind, hbehind⟩ := h
  have hdialect : (replaceFirst "c++" "gnu++" name).toList =
      "gnu".toList ++ ("++".toList ++ behind) := by
    rw [toList_replaceFirst, ← hbehind, Text.replaceFirst_append]
    rfl
  rw [← String.toList_inj, toList_replaceFirst, hdialect, Text.replaceFirst_append, ← hbehind]
  rfl

end Standards

section Reading

variable {settings : Settings} {items : List String}

-- What settings hold after flags have been read.
structure Stored (settings : Settings) : Prop where
  includeDirs : ∀ directory ∈ settings.includeDirs, directory.text ≠ ""
  directives : ∀ directive ∈ settings.directives, directive.IsTrimmed
  features : ∀ name ∈ settings.features, Flag.ofItem ("-f" ++ name) = .feature name
  standard : ∀ name ∈ settings.standard, ¬"gnu".toList <+: name.toList
  extensions : settings.gnuExtensions = true → settings.standard ≠ none

-- Nothing is put in front of a directory.
theorem join_empty (directory : String) : Path.join ⟨""⟩ ⟨directory⟩ = ⟨directory⟩ := by
  simp [Path.join]

theorem Stored.apply (h : settings.Stored) {flag : Flag} (hargument : flag.hasArgument = true)
    (hfeature : ∀ name, flag = .feature name → Flag.ofItem ("-f" ++ name) = .feature name) :
    (settings.apply ⟨""⟩ flag).Stored := by
  have hlast {α : Type} {values : List α} {property : α → Prop} {value : α}
      (hvalues : ∀ a ∈ values, property a) (hvalue : property value) :
      ∀ a ∈ values ++ [value], property a := by
    simpa [or_imp, forall_and] using ⟨hvalues, hvalue⟩
  cases flag with
  | includeDir directory =>
      refine { h with includeDirs := hlast h.includeDirs ?_ }
      rw [join_empty]
      exact of_decide_eq_true hargument
  | define definition =>
      have hdirective := Directive.isTrimmed_ofDefinition definition
      exact { h with directives := hlast h.directives hdirective }
  | undefine name =>
      have hdirective := Directive.isTrimmed_ofUndefinition name
      exact { h with directives := hlast h.directives hdirective }
  | standard name =>
      refine { h with standard := fun stored hstored => ?_, extensions := fun _ => ?_ }
      · obtain rfl : replaceFirst "gnu" "c" name = stored := Option.some.inj hstored
        exact not_gnu_prefix name
      · exact Option.some_ne_none _
  | feature name => exact { h with features := hlast h.features (hfeature name rfl) }
  | msExtensions => exact { h with }
  | msCompatibility => exact { h with }
  | incomplete => exact h
  | unknown => exact h

theorem Stored.foldl (h : settings.Stored) {flags : List Flag}
    (hargument : ∀ flag ∈ flags, flag.hasArgument = true)
    (hfeature : ∀ name, .feature name ∈ flags → Flag.ofItem ("-f" ++ name) = .feature name) :
    (flags.foldl (Settings.apply ⟨""⟩) settings).Stored := by
  induction flags generalizing settings with
  | nil => exact h
  | cons flag flags ih =>
      rw [List.forall_mem_cons] at hargument
      refine ih (h.apply hargument.1 ?_) hargument.2 ?_
      · rintro name rfl
        exact hfeature name List.mem_cons_self
      · exact fun name hmem => hfeature name (List.mem_cons_of_mem _ hmem)

theorem stored_applyAll (h : ∀ flag ∈ Flag.ofItems items, flag.hasArgument = true) :
    (empty.applyAll ⟨""⟩ items).Stored := by
  have hempty : empty.Stored := by
    constructor <;> simp [empty]
  exact hempty.foldl h fun _ => Flag.feature_of_mem

-- How much settings hold, without the standard.
def size (settings : Settings) : Nat :=
  settings.includeDirs.length + settings.directives.length + settings.features.length +
    settings.msExtensions.toNat + settings.msCompatibility.toNat

theorem size_merge_le (settings later : Settings) :
    (settings.merge later).size ≤ settings.size + later.size := by
  have hor (first second : Bool) : (first || second).toNat ≤ first.toNat + second.toNat := by
    cases first <;> simp
  have hms := hor settings.msExtensions later.msExtensions
  have hcompatibility := hor settings.msCompatibility later.msCompatibility
  simp only [size, merge, List.length_append]
  omega

theorem size_apply_le (base : Path) (flag : Flag) : (empty.apply base flag).size ≤ 1 := by
  cases flag <;> simp [apply, direct, setStandard, size, empty]

theorem applyAll_spelled {front : List String} {flag : Flag} (h : Flag.Spelled front flag)
    (base : Path) (items : List String) :
    empty.applyAll base (front ++ items) =
      (empty.apply base flag).merge (empty.applyAll base items) := by
  rw [applyAll, h.ofItems_append, List.foldl_cons, foldl_apply]
  rfl

theorem applyAll_missing {base : Path} {item : String} {make : String → Flag}
    (h : Flag.splitFlag? item = some (make, [])) : empty.applyAll base [item] = empty := by
  rw [applyAll, Flag.ofItems_missing h]
  rfl

-- Every setting takes at least one item.
theorem size_applyAll_le (base : Path) (items : List String) :
    (empty.applyAll base items).size ≤ items.length := by
  induction items using Flag.items_induction with
  | nil => exact Nat.le_refl 0
  | missing item make hsplit =>
      rw [applyAll_missing hsplit]
      exact Nat.zero_le _
  | spelled front flag items hspelled ih =>
      have hmerge := size_merge_le (empty.apply base flag) (empty.applyAll base items)
      have hflag := size_apply_le base flag
      have hfront := hspelled.length_pos
      rw [applyAll_spelled hspelled, List.length_append]
      omega

-- A flag that waits for its argument takes another item.
theorem size_applyAll_lt (base : Path) {item : String} (hmem : item ∈ items)
    (hwaits : ∃ make, Flag.splitFlag? item = some (make, [])) :
    (empty.applyAll base items).size < items.length := by
  induction items using Flag.items_induction with
  | nil => cases hmem
  | missing other make hsplit =>
      rw [applyAll_missing hsplit]
      exact Nat.one_pos
  | spelled front flag items hspelled ih =>
      have hmerge := size_merge_le (empty.apply base flag) (empty.applyAll base items)
      have hflag := size_apply_le base flag
      have hitems := size_applyAll_le base items
      rw [applyAll_spelled hspelled, List.length_append]
      -- the item waits in what follows, or it is of this flag, which then has a second item
      by_cases hlater : item ∈ items
      · have hfewer := ih hlater
        have hfront := hspelled.length_pos
        omega
      · have hfront := (List.mem_append.mp hmem).resolve_right hlater
        obtain ⟨make, hwaits⟩ := hwaits
        have hlength : front.length = 2 := by
          cases hspelled with
          | attached hsplit hargument =>
              rw [← List.mem_singleton.mp hfront, hwaits] at hsplit
              exact absurd (Prod.mk.inj (Option.some.inj hsplit)).2.symm hargument
          | apart _ _ => rfl
          | whole hsplit =>
              rw [← List.mem_singleton.mp hfront, hwaits] at hsplit
              cases hsplit
        omega

end Reading

section Returning

variable {settings : Settings} {items : List String}

def withoutStandard (settings : Settings) : Settings :=
  { settings with standard := none, gnuExtensions := false }

def switchFlags (settings : Settings) : List String :=
  (if settings.msExtensions then ["-fms-extensions"] else []) ++
    (if settings.msCompatibility then ["-fms-compatibility"] else [])

def otherFlags (settings : Settings) : List String :=
  settings.includeDirs.map (fun directory => "-I" ++ directory.text) ++
    (settings.directives.map Directive.toFlag ++
      (settings.features.map (fun name => "-f" ++ name) ++ settings.switchFlags))

theorem toFlags_eq (settings : Settings) :
    settings.toFlags = settings.standardFlag ++ settings.otherFlags := by
  simp only [toFlags, otherFlags, switchFlags, List.append_assoc]

theorem length_otherFlags (settings : Settings) : settings.otherFlags.length = settings.size := by
  have hswitch (b : Bool) (item : String) :
      (if b = true then [item] else []).length = b.toNat := by
    cases b <;> rfl
  simp only [otherFlags, switchFlags, List.length_append, List.length_map, hswitch, size]
  omega

-- The settings that their own flags give.
def returned (settings : Settings) : Settings := empty.applyAll ⟨""⟩ settings.toFlags

-- With extensions the standard is one of C++, and without them its name holds that of no dialect.
def KeepsStandard (settings : Settings) : Prop :=
  ∀ name ∈ settings.standard,
    if settings.gnuExtensions then "c++".toList <+: name.toList
    else ¬"gnu".toList <:+: name.toList

-- What is read of values that are written one to an item.
theorem applyAll_map {α : Type} {values : List α} {base : Path} (write : α → String)
    (flag : α → Flag) (held : List α → Settings) (hnil : held [] = empty)
    (h : ∀ value ∈ values, Flag.Spelled [write value] (flag value) ∧
      ∀ more, held (value :: more) = (empty.apply base (flag value)).merge (held more))
    (items : List String) :
    empty.applyAll base (values.map write ++ items) =
      (held values).merge (empty.applyAll base items) := by
  induction values with
  | nil => rw [List.map_nil, List.nil_append, hnil, empty_merge]
  | cons value values ih =>
      rw [List.forall_mem_cons] at h
      rw [List.map_cons, List.cons_append, ← List.singleton_append, applyAll_spelled h.1.1, ih h.2,
        h.1.2, merge_assoc]

theorem applyAll_includeDirs (h : settings.Stored) (items : List String) :
    empty.applyAll ⟨""⟩
        (settings.includeDirs.map (fun directory => "-I" ++ directory.text) ++ items) =
      Settings.merge { empty with includeDirs := settings.includeDirs }
        (empty.applyAll ⟨""⟩ items) := by
  refine applyAll_map _ (fun directory => .includeDir directory.text)
    (fun directories => { empty with includeDirs := directories }) rfl
    (fun directory hmem => ⟨?_, fun more => ?_⟩) items
  · exact Flag.spelled_attached (by simp [Flag.splitFlags]) (h.includeDirs directory hmem)
  · simp [merge, apply, empty, join_empty]

theorem applyAll_directives (h : settings.Stored)
    (hnamed : ∀ directive ∈ settings.directives, directive.isNamed = true) (items : List String) :
    empty.applyAll ⟨""⟩ (settings.directives.map Directive.toFlag ++ items) =
      Settings.merge { empty with directives := settings.directives }
        (empty.applyAll ⟨""⟩ items) := by
  refine applyAll_map _ Directive.flag (fun directives => { empty with directives := directives })
    rfl (fun directive hmem => ⟨?_, fun more => ?_⟩) items
  · exact Directive.spelled_toFlag (hnamed directive hmem)
  · rw [Directive.apply_flag (h.directives directive hmem)]
    simp [merge, direct, empty]

theorem applyAll_features (h : settings.Stored) (items : List String) :
    empty.applyAll ⟨""⟩ (settings.features.map (fun name => "-f" ++ name) ++ items) =
      Settings.merge { empty with features := settings.features }
        (empty.applyAll ⟨""⟩ items) := by
  refine applyAll_map _ Flag.feature (fun features => { empty with features := features }) rfl
    (fun name hmem => ⟨?_, fun more => ?_⟩) items
  · exact Flag.spelled_feature (h.features name hmem)
  · simp [merge, apply, empty]

theorem applyAll_switchFlags (base : Path) (settings : Settings) :
    empty.applyAll base settings.switchFlags = { empty with
      msExtensions := settings.msExtensions
      msCompatibility := settings.msCompatibility } := by
  unfold switchFlags
  cases settings.msExtensions <;> cases settings.msCompatibility <;> rfl

-- With names everywhere all but the standard comes back.
theorem applyAll_otherFlags (h : settings.Stored)
    (hnamed : ∀ directive ∈ settings.directives, directive.isNamed = true) :
    empty.applyAll ⟨""⟩ settings.otherFlags = settings.withoutStandard := by
  rw [otherFlags, applyAll_includeDirs h, applyAll_directives h hnamed, applyAll_features h,
    applyAll_switchFlags]
  simp [withoutStandard, merge, empty]

-- The name under which a standard is written.
def dialect (settings : Settings) (name : String) : String :=
  if settings.gnuExtensions then replaceFirst "c++" "gnu++" name else name

theorem returned_of_none (h : settings.standard = none) :
    settings.returned = empty.applyAll ⟨""⟩ settings.otherFlags := by
  rw [returned, toFlags_eq, standardFlag, h, List.nil_append]

theorem returned_of_some {name : String} (h : settings.standard = some name) :
    settings.returned = (empty.setStandard (settings.dialect name)).merge
      (empty.applyAll ⟨""⟩ settings.otherFlags) := by
  rw [returned, toFlags_eq, standardFlag, h]
  exact applyAll_spelled (Flag.spelled_standard _) ⟨""⟩ settings.otherFlags

-- A name that is missing takes the next flag away.
theorem returned_ne (h : ∃ directive ∈ settings.directives, directive.isNamed = false) :
    settings.returned ≠ settings := by
  obtain ⟨directive, hmem, hname⟩ := h
  have hflag : directive.toFlag ∈ settings.otherFlags := by
    simp only [otherFlags, List.mem_append]
    exact .inr (.inl (List.mem_map_of_mem hmem))
  have hother := size_applyAll_lt ⟨""⟩ hflag (Directive.splitFlag?_toFlag hname)
  rw [length_otherFlags] at hother
  intro hsame
  cases hstandard : settings.standard with
  | none =>
      rw [← returned_of_none hstandard, hsame] at hother
      exact Nat.lt_irrefl _ hother
  | some name =>
      have hmerge := size_merge_le (empty.setStandard (settings.dialect name))
        (empty.applyAll ⟨""⟩ settings.otherFlags)
      have hnothing : (empty.setStandard (settings.dialect name)).size = 0 := rfl
      rw [← returned_of_some hstandard, hsame] at hmerge
      omega

theorem merge_withoutStandard_eq_iff {name other : String} (h : settings.standard = some name) :
    (empty.setStandard other).merge settings.withoutStandard = settings ↔
      replaceFirst "gnu" "c" other = name ∧
        "gnu".toList.isPrefixOf other.toList = settings.gnuExtensions := by
  cases settings
  simp_all [merge, setStandard, withoutStandard, empty]

theorem returned_eq_iff (h : settings.Stored)
    (hnamed : ∀ directive ∈ settings.directives, directive.isNamed = true) :
    settings.returned = settings ↔ settings.KeepsStandard := by
  have hother := applyAll_otherFlags h hnamed
  unfold KeepsStandard
  cases hstandard : settings.standard with
  | none =>
      have hgnu : settings.gnuExtensions = false :=
        Bool.eq_false_iff.mpr fun hgnu => h.extensions hgnu hstandard
      have hsame : settings.withoutStandard = settings := by
        cases settings
        simp_all [withoutStandard]
      rw [returned_of_none hstandard, hother]
      exact iff_of_true hsame fun name hname => nomatch hname
  | some name =>
      have hgnu := h.standard name hstandard
      rw [returned_of_some hstandard, hother, merge_withoutStandard_eq_iff hstandard, dialect]
      simp only [Option.mem_some_iff, forall_eq']
      cases settings.gnuExtensions with
      | true =>
          rw [if_pos rfl, if_pos rfl, List.isPrefixOf_iff_prefix, gnu_prefix_iff hgnu]
          exact and_iff_right_of_imp replaceFirst_gnu_of_prefix
      | false =>
          rw [if_neg Bool.false_ne_true, if_neg Bool.false_ne_true, replaceFirst_gnu_eq_self_iff,
            Bool.eq_false_iff, ne_eq, List.isPrefixOf_iff_prefix]
          exact and_iff_left hgnu

-- Settings that flags gave come back from their own flags exactly if every macro has a name and a
-- GNU dialect was asked for only together with a standard of C++.
theorem returned_applyAll_iff (h : ∀ flag ∈ Flag.ofItems items, flag.hasArgument = true) :
    (empty.applyAll ⟨""⟩ items).returned = empty.applyAll ⟨""⟩ items ↔
      (empty.applyAll ⟨""⟩ items).KeepsStandard ∧
        ∀ directive ∈ (empty.applyAll ⟨""⟩ items).directives, directive.isNamed = true := by
  by_cases hnamed : ∀ directive ∈ (empty.applyAll ⟨""⟩ items).directives, directive.isNamed = true
  · rw [returned_eq_iff (stored_applyAll h) hnamed, and_iff_left hnamed]
  · have hunnamed : ∃ directive ∈ (empty.applyAll ⟨""⟩ items).directives,
        directive.isNamed = false := by
      simpa using hnamed
    exact iff_of_false (returned_ne hunnamed) fun h => hnamed h.2

-- A dialect of C++, arguments that stand apart, and a flag that carries no setting.
def mixedItems : List String :=
  ["-std=gnu++17", "-I", "inc", "-D", " A = 1", "-UB", "-fno-rtti", "-fms-extensions", "-c"]

theorem returned_applyAll_mixed :
    (∀ flag ∈ Flag.ofItems mixedItems, flag.hasArgument = true) ∧
      (empty.applyAll ⟨""⟩ mixedItems).returned = empty.applyAll ⟨""⟩ mixedItems := by
  have hargument : ∀ flag ∈ Flag.ofItems mixedItems, flag.hasArgument = true := by decide
  refine ⟨hargument, (returned_applyAll_iff hargument).mpr ⟨?_, by decide⟩⟩
  intro name hname
  obtain rfl : "c++17" = name := Option.some.inj hname
  exact ⟨"17".toList, rfl⟩

-- The GNU dialect of C is written as the standard itself.
theorem returned_ne_gnuC :
    (∀ flag ∈ Flag.ofItems ["-std=gnu17"], flag.hasArgument = true) ∧
      (empty.applyAll ⟨""⟩ ["-std=gnu17"]).toFlags = ["-std=c17"] ∧
      (empty.applyAll ⟨""⟩ ["-std=gnu17"]).returned ≠ empty.applyAll ⟨""⟩ ["-std=gnu17"] := by
  decide

end Returning

end Settings

end Reflection
