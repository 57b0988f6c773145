import Mathlib.Data.List.Basic
import Reflection.Proofs.Settings.Directives

namespace Reflection

namespace Flag

variable {item : String} {make : String → Flag} {flag : Flag} {front first : List String}

-- The flags that take an argument, as they are read with it.
def TakesArgument (make : String → Flag) : Prop :=
  make = includeDir ∨ make = define ∨ make = undefine

theorem takesArgument_of_split {attached : List Char}
    (h : splitFlag? item = some (make, attached)) : TakesArgument make := by
  obtain ⟨⟨start, flag⟩, hmem, hstart⟩ := List.exists_of_findSome?_eq_some h
  obtain ⟨_, _, hpair⟩ := Option.map_eq_some_iff.mp hstart
  obtain ⟨rfl, rfl⟩ := Prod.mk.inj hpair
  simp only [splitFlags, List.mem_cons, List.not_mem_nil, or_false, Prod.mk.injEq] at hmem
  exact hmem.imp And.right (Or.imp And.right And.right)

-- One flag with its argument.
inductive Spelled : List String → Flag → Prop where
  | attached {item : String} {make : String → Flag} {argument : List Char}
      (hsplit : splitFlag? item = some (make, argument)) (hargument : argument ≠ []) :
      Spelled [item] (make (String.ofList argument))
  | apart {item : String} {make : String → Flag} (hsplit : splitFlag? item = some (make, []))
      (argument : String) : Spelled [item, argument] (make argument)
  | whole {item : String} (hsplit : splitFlag? item = none) : Spelled [item] (ofItem item)

-- At the end nothing is left for the argument.
theorem ofItems_missing (h : splitFlag? item = some (make, [])) : ofItems [item] = [incomplete] := by
  rw [ofItems, h]

theorem Spelled.ofItems_append (h : Spelled front flag) (items : List String) :
    ofItems (front ++ items) = flag :: ofItems items := by
  cases h with
  | @attached item make argument hsplit hargument =>
      cases argument with
      | nil => exact absurd rfl hargument
      | cons c argument => rw [List.singleton_append, ofItems, hsplit]
  | apart hsplit argument => rw [List.cons_append, List.singleton_append, ofItems, hsplit]
  | whole hsplit => rw [List.singleton_append, ofItems, hsplit]

theorem Spelled.length_pos (h : Spelled front flag) : 0 < front.length := by
  cases h <;> exact Nat.succ_pos _

theorem Spelled.ne_incomplete (h : Spelled front flag) : incomplete ≠ flag := by
  have hmake {make : String → Flag} (hmake : TakesArgument make) (argument : String) :
      incomplete ≠ make argument := by
    obtain rfl | rfl | rfl := hmake <;> exact Flag.noConfusion
  cases h with
  | attached hsplit _ => exact hmake (takesArgument_of_split hsplit) _
  | apart hsplit argument => exact hmake (takesArgument_of_split hsplit) argument
  | whole _ =>
      unfold ofItem
      repeat' split
      all_goals exact Flag.noConfusion

-- A command line is read flag by flag. Only the argument of the last one may be missing.
theorem items_induction {motive : List String → Prop} (nil : motive [])
    (missing : ∀ item make, splitFlag? item = some (make, []) → motive [item])
    (spelled : ∀ front flag items, Spelled front flag → motive items → motive (front ++ items))
    (items : List String) : motive items := by
  fun_induction ofItems items with
  | case1 => exact nil
  | case2 item make hsplit => exact missing item make hsplit
  | case3 item make hsplit argument items ih => exact spelled _ _ items (.apart hsplit argument) ih
  | case4 item items make attached hattached hsplit ih =>
      exact spelled _ _ items (.attached hsplit hattached) ih
  | case5 item items hsplit ih => exact spelled _ _ items (.whole hsplit) ih

theorem ofItems_append (h : incomplete ∉ ofItems first) (second : List String) :
    ofItems (first ++ second) = ofItems first ++ ofItems second := by
  induction first using items_induction with
  | nil => rfl
  | missing item make hsplit =>
      rw [ofItems_missing hsplit] at h
      exact absurd (List.mem_singleton_self _) h
  | spelled front flag items hspelled ih =>
      rw [hspelled.ofItems_append] at h
      rw [List.append_assoc, hspelled.ofItems_append, hspelled.ofItems_append,
        ih fun hmem => h (List.mem_cons_of_mem _ hmem), List.cons_append]

-- A flag whose argument is missing is the last one, and takes the first item of what follows.
theorem ofItems_append_of_incomplete (h : incomplete ∈ ofItems first) :
    ∃ flags make, TakesArgument make ∧ ofItems first = flags ++ [incomplete] ∧
      ∀ argument second,
        ofItems (first ++ argument :: second) = flags ++ make argument :: ofItems second := by
  induction first using items_induction with
  | nil => cases h
  | missing item make hsplit =>
      exact ⟨[], make, takesArgument_of_split hsplit, ofItems_missing hsplit,
        fun argument => (Spelled.apart hsplit argument).ofItems_append⟩
  | spelled front flag items hspelled ih =>
      rw [hspelled.ofItems_append] at h
      obtain ⟨flags, make, hmake, hitems, hmore⟩ :=
        ih ((List.mem_cons.mp h).resolve_left hspelled.ne_incomplete)
      refine ⟨flag :: flags, make, hmake, ?_, fun argument second => ?_⟩
      · rw [hspelled.ofItems_append, hitems, List.cons_append]
      · rw [List.append_assoc, hspelled.ofItems_append, hmore, List.cons_append]

end Flag

namespace Settings

theorem merge_assoc (first second third : Settings) :
    (first.merge second).merge third = first.merge (second.merge third) := by
  simp [merge, List.append_assoc, Option.or_assoc, Bool.or_assoc]

@[simp] theorem empty_merge (settings : Settings) : empty.merge settings = settings := by
  simp [merge, empty]

@[simp] theorem merge_empty (settings : Settings) : settings.merge empty = settings := by
  simp [merge, empty]

theorem macros_merge (settings later : Settings) :
    (settings.merge later).macros = later.directives.foldl Directive.apply settings.macros :=
  List.foldl_append

-- A flag adds to settings what it adds to none.
theorem apply_eq_merge (base : Path) (settings : Settings) (flag : Flag) :
    settings.apply base flag = settings.merge (empty.apply base flag) := by
  cases flag <;> simp [apply, merge, empty, direct, setStandard]

theorem foldl_apply (base : Path) (settings : Settings) (flags : List Flag) :
    flags.foldl (apply base) settings = settings.merge (flags.foldl (apply base) empty) := by
  induction flags generalizing settings with
  | nil => simp
  | cons flag flags ih =>
      rw [List.foldl_cons, List.foldl_cons, ih, ih (empty.apply base flag), ← merge_assoc,
        ← apply_eq_merge]

-- What a flag with an argument adds is never nothing.
theorem merge_apply_ne (base : Path) (settings : Settings) {make : String → Flag}
    (h : Flag.TakesArgument make) (argument : String) :
    settings.merge (empty.apply base (make argument)) ≠ settings := by
  intro hsame
  obtain rfl | rfl | rfl := h
  · simpa [merge, apply, empty] using congrArg Settings.includeDirs hsame
  · simpa [merge, apply, empty, direct] using congrArg Settings.directives hsame
  · simpa [merge, apply, empty, direct] using congrArg Settings.directives hsame

theorem applyAll_append {first : List String} (h : .incomplete ∉ Flag.ofItems first) (base : Path)
    (second : List String) :
    empty.applyAll base (first ++ second) =
      (empty.applyAll base first).merge (empty.applyAll base second) := by
  rw [applyAll, Flag.ofItems_append h, List.foldl_append, foldl_apply]
  rfl

theorem applyAll_append_of_incomplete {first : List String} (h : .incomplete ∈ Flag.ofItems first)
    (base : Path) (argument : String) :
    ∃ make, Flag.TakesArgument make ∧ empty.applyAll base (first ++ [argument]) =
      (empty.applyAll base first).merge (empty.apply base (make argument)) := by
  obtain ⟨flags, make, hmake, hfirst, hmore⟩ := Flag.ofItems_append_of_incomplete h
  refine ⟨make, hmake, ?_⟩
  rw [applyAll, applyAll, hfirst, hmore, List.foldl_append, List.foldl_append]
  exact apply_eq_merge base _ (make argument)

-- Two command lines can be read one by one exactly if no flag of the first takes its argument from
-- the second.
theorem applyAll_append_iff (base : Path) (first : List String) :
    .incomplete ∉ Flag.ofItems first ↔ ∀ second, empty.applyAll base (first ++ second) =
      (empty.applyAll base first).merge (empty.applyAll base second) := by
  constructor
  · exact fun h => applyAll_append h base
  · intro h hincomplete
    obtain ⟨make, hmake, hargument⟩ := applyAll_append_of_incomplete hincomplete base ""
    have hnothing : empty.applyAll base [""] = empty := rfl
    rw [h, hnothing, merge_empty] at hargument
    exact merge_apply_ne base _ hmake "" hargument.symm

-- The last directive of the second settings about a name says what it stands for. Where there is
-- none, the first settings do.
theorem lookup_macros_merge (settings later : Settings) (name : String) :
    (settings.merge later).macros.lookup name.toList =
      ((later.directives.filterMap (Directive.effect? name)).getLast?).elim
        (settings.macros.lookup name.toList) (·.map String.toList) := by
  rw [macros_merge, Directive.lookup_foldl_apply]
  cases (later.directives.filterMap (Directive.effect? name)).getLast? <;> rfl

-- Merging is associative, settings without any flag change nothing, and the macros are those of the
-- first settings with the directives of the second applied to them. So settings can be read in
-- parts, wherever a command line is cut between two flags.
theorem merge_laws (base : Path) :
    (∀ first, .incomplete ∉ Flag.ofItems first ↔ ∀ second, empty.applyAll base (first ++ second) =
        (empty.applyAll base first).merge (empty.applyAll base second)) ∧
      (∀ first second third : Settings,
        (first.merge second).merge third = first.merge (second.merge third)) ∧
      (∀ settings : Settings, empty.merge settings = settings ∧ settings.merge empty = settings) ∧
      (∀ settings later : Settings, (settings.merge later).macros =
        later.directives.foldl Directive.apply settings.macros) ∧
      ∀ (settings later : Settings) (name : String),
        (settings.merge later).macros.lookup name.toList =
          ((later.directives.filterMap (Directive.effect? name)).getLast?).elim
            (settings.macros.lookup name.toList) (·.map String.toList) :=
  ⟨applyAll_append_iff base, merge_assoc,
    fun settings => ⟨empty_merge settings, merge_empty settings⟩, macros_merge,
    lookup_macros_merge⟩

-- Cut behind a flag that waits for its argument, the second part is read as something else.
example : empty.applyAll ⟨"."⟩ (["-I"] ++ ["inc"]) ≠
    (empty.applyAll ⟨"."⟩ ["-I"]).merge (empty.applyAll ⟨"."⟩ ["inc"]) := by decide

end Settings

end Reflection
