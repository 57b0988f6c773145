import Mathlib.Data.List.Basic
import Reflection.Proofs.Selection.Occurrences

namespace Reflection

open Metadata (Piece)

section Names

-- The names joined by `::`. Empty names in front of the others are left out.
def joinScopes (names : List String) : String := "::".intercalate (names.dropWhile String.isEmpty)

theorem joinScopes_eq_empty {names : List String} :
    joinScopes names = "" ↔ names.dropWhile String.isEmpty = [] := by
  unfold joinScopes
  cases hnames : names.dropWhile String.isEmpty with
  | nil => simp
  | cons first others =>
      have hfirst : first ≠ "" := by
        have hhead := List.head?_dropWhile_not String.isEmpty names
        rw [hnames] at hhead
        simpa using hhead
      cases others with
      | nil => simpa using hfirst
      | cons second others => simp [String.intercalate_cons_cons]

theorem joinScopes_append (scopes : List String) (name : String) :
    joinScopes (scopes ++ [name]) = qualify (joinScopes scopes) name := by
  unfold qualify
  by_cases hempty : scopes.dropWhile String.isEmpty = []
  · rw [joinScopes_eq_empty.mpr hempty]
    by_cases hname : name = ""
    · simp [joinScopes, List.dropWhile_append, hempty, hname]
    · simp [joinScopes, List.dropWhile_append, hempty, hname]
  · have hne : joinScopes scopes ≠ "" := fun h => hempty (joinScopes_eq_empty.mp h)
    rw [if_neg (by simpa using hne)]
    simp only [joinScopes, List.dropWhile_append, List.isEmpty_iff, if_neg hempty]
    rw [String.intercalate_append_of_ne_nil hempty (List.cons_ne_nil _ _),
      String.intercalate_singleton]

end Names

section Candidates

-- The candidate that an occurrence inside these scopes stands for.
def Occurrence.candidate (scopes : List String) (occurrence : Occurrence) : Candidate :=
  ⟨joinScopes (scopes ++ occurrence.names), occurrence.decl⟩

theorem candidatesOf_eq_flatMap (scope : String) (entities : List Entity) :
    candidatesOf scope entities = entities.flatMap (Entity.candidates scope) := by
  induction entities with
  | nil => rfl
  | cons entity entities ih =>
      rw [candidatesOf, ih]
      rfl

def Member.candidates (scope : String) : Member → List Candidate
  | .type entity => entity.candidates scope
  | .field _ => []
  | .method _ => []

theorem nestedCandidates_eq_flatMap (scope : String) (members : List Member) :
    nestedCandidates scope members = members.flatMap (Member.candidates scope) := by
  induction members with
  | nil => rfl
  | cons member members ih =>
      cases member with
      | field _ | method _ | type _ =>
          rw [nestedCandidates, ih]
          rfl

theorem candidate_comp_inside (scopes names : List String) :
    Occurrence.candidate scopes ∘ Occurrence.inside names =
      Occurrence.candidate (scopes ++ names) := by
  funext occurrence
  simp only [Function.comp, Occurrence.candidate, Occurrence.inside, List.append_assoc]

theorem Entity.candidates_eq_map (entity : Entity) (scopes : List String) :
    entity.candidates (joinScopes scopes) = entity.occurrences.map (Occurrence.candidate scopes) := by
  induction entity using Entity.induct generalizing scopes with
  | namespaceDecl head entities ih =>
      rw [Entity.candidates, Entity.occurrences, occurrencesOf_eq_numbered, List.map_map,
        candidate_comp_inside, map_numbered _ fun _ _ => rfl]
      cases head.name with
      | none =>
          dsimp only
          rw [candidatesOf_eq_flatMap, Option.toList_none, List.append_nil]
          exact List.flatMap_congr fun entity hentity => ih entity hentity scopes
      | some name =>
          dsimp only
          rw [candidatesOf_eq_flatMap, Option.toList_some, ← joinScopes_append]
          exact List.flatMap_congr fun entity hentity => ih entity hentity (scopes ++ [name])
  | classDecl head members ih =>
      rw [Entity.candidates, Entity.occurrences, nestedOccurrences_eq_numbered]
      cases head.name with
      | none => rfl
      | some name =>
          dsimp only
          split
          · rw [List.map_cons, List.map_map, candidate_comp_inside, map_numbered _ fun _ _ => rfl,
              ← joinScopes_append, nestedCandidates_eq_flatMap]
            refine congrArg (_ :: ·) (List.flatMap_congr fun member hmember => ?_)
            cases member with
            | field _ | method _ => rfl
            | type entity => exact ih entity hmember (scopes ++ [name])
          · rfl
  | enumDecl decl =>
      rw [Entity.candidates, Entity.occurrences]
      cases decl.name with
      | none => rfl
      | some name =>
          dsimp only
          split
          · rw [← joinScopes_append]
            rfl
          · rfl

-- The candidates of a tree are its types from top to bottom.
theorem candidatesOf_eq_map (entities : List Entity) :
    candidatesOf "" entities = (occurrencesOf 0 entities).map (Occurrence.candidate []) := by
  rw [candidatesOf_eq_flatMap, occurrencesOf_eq_numbered, map_numbered _ fun _ _ => rfl]
  exact List.flatMap_congr fun entity _ => entity.candidates_eq_map []

end Candidates

section Selected

-- What one annotation contributes to the metadata of its declaration.
def SelectionOptions.piecesOf (options : SelectionOptions) (block : AnnotationBlock) : List Piece :=
  match block.pieces, options.malformed with
  | .ok pieces, _ => pieces
  | .error _, .nothing => []
  | .error _, .rawPiece => [⟨rawKey, String.ofList (Text.trim block.text.toList)⟩]

namespace Occurrence

def qualifiedName (occurrence : Occurrence) : String := joinScopes occurrence.names

def pieces (options : SelectionOptions) (occurrence : Occurrence) : List Piece :=
  occurrence.decl.annotations.flatMap options.piecesOf

-- A type is selected if it has a marker and, when a type marker is asked for, metadata with it.
def Selected (options : SelectionOptions) (occurrence : Occurrence) : Prop :=
  (∃ block ∈ occurrence.decl.annotations, block.isMarker = true) ∧
    ∀ key, options.typeMarker = some key → ∃ piece ∈ occurrence.pieces options, piece.key = key

def description (options : SelectionOptions) (occurrence : Occurrence) : Description :=
  (occurrence.candidate []).describe options

end Occurrence

variable {options : SelectionOptions}

theorem collect_eq_flatMap (target : String) (annotations : List AnnotationBlock) :
    (options.collect target annotations).1 = annotations.flatMap options.piecesOf := by
  induction annotations with
  | nil => rfl
  | cons block annotations ih =>
      rw [SelectionOptions.collect, List.flatMap_cons, ← ih]
      unfold SelectionOptions.piecesOf
      cases block.pieces with
      | ok pieces => rfl
      | error error => cases options.malformed <;> rfl

theorem accepts_iff (pieces : List Piece) :
    options.accepts pieces = true ↔
      ∀ key, options.typeMarker = some key → ∃ piece ∈ pieces, piece.key = key := by
  unfold SelectionOptions.accepts
  cases options.typeMarker with
  | none => simp
  | some marker => simp

-- The description of a type that is not selected holds no descriptor.
theorem description_type_isSome {occurrence : Occurrence} :
    (occurrence.description options).type.isSome = true ↔ occurrence.Selected options := by
  have hmarker : hasMarker occurrence.decl.annotations = true ↔
      ∃ block ∈ occurrence.decl.annotations, block.isMarker = true := List.any_eq_true
  unfold Occurrence.Selected Occurrence.description Candidate.describe
  rw [← hmarker, Occurrence.pieces, ← accepts_iff]
  simp only [Occurrence.candidate, collect_eq_flatMap]
  by_cases hmark : hasMarker occurrence.decl.annotations = true
  · by_cases haccepts :
        options.accepts (occurrence.decl.annotations.flatMap options.piecesOf) = true
    · simp [hmark, haccepts]
    · simp [hmark, haccepts]
  · simp [hmark]

-- The descriptor of a candidate that is selected.
theorem describe_type {candidate : Candidate} {type : TypeDescriptor}
    (h : (candidate.describe options).type = some type) :
    hasMarker candidate.decl.annotations = true ∧
      type = ⟨candidate.qualifiedName,
        (options.collect candidate.qualifiedName candidate.decl.annotations).1,
        (options.describeBody candidate.qualifiedName candidate.decl).1⟩ := by
  unfold Candidate.describe at h
  dsimp only at h
  split at h
  · next hmarker =>
    split at h
    · cases h
      exact ⟨hmarker, rfl⟩
    · cases h
  · cases h

theorem description_type_eq {occurrence : Occurrence} {type : TypeDescriptor}
    (h : (occurrence.description options).type = some type) :
    type.qualifiedName = occurrence.qualifiedName ∧ type.pieces = occurrence.pieces options := by
  obtain ⟨-, rfl⟩ := describe_type h
  exact ⟨rfl, collect_eq_flatMap _ _⟩

theorem description_span (occurrence : Occurrence) :
    (occurrence.description options).span = occurrence.decl.span := by
  unfold Occurrence.description Candidate.describe
  dsimp only
  split
  · split <;> rfl
  · rfl

end Selected

section Repetitions

-- One finding for every type whose name an earlier one has, with the first one of that name.
def repetitions (found : List Occurrence) : List Finding :=
  found.zipIdx.filterMap fun later =>
    ((found.take later.2).find? fun earlier => earlier.qualifiedName = later.1.qualifiedName).map
      fun first => .duplicateName later.1.qualifiedName first.decl.span later.1.decl.span

def Occurrence.entry (occurrence : Occurrence) : String × Span :=
  (occurrence.qualifiedName, occurrence.decl.span)

-- Where the names that have been seen lead is where the first types of these names stand.
theorem duplicates_eq_filterMap (seen : List (String × Span)) (earlier found : List Occurrence)
    (hseen : ∀ name, (seen.find? (·.1 == name)).map (·.2) =
      (earlier.find? (·.qualifiedName = name)).map (·.decl.span)) :
    duplicates seen (found.map Occurrence.entry) =
      (found.zipIdx earlier.length).filterMap fun later =>
        (((earlier ++ found).take later.2).find? (·.qualifiedName = later.1.qualifiedName)).map
          fun first => .duplicateName later.1.qualifiedName first.decl.span later.1.decl.span := by
  induction found generalizing seen earlier with
  | nil => rfl
  | cons occurrence found ih =>
      have htake : (earlier ++ occurrence :: found).take earlier.length = earlier := by
        rw [List.take_left]
      have hsplit : earlier ++ occurrence :: found = (earlier ++ [occurrence]) ++ found := by simp
      have hlength : earlier.length + 1 = (earlier ++ [occurrence]).length := by simp
      rw [List.map_cons, List.zipIdx_cons, List.filterMap_cons]
      simp only [htake]
      have hname := hseen occurrence.qualifiedName
      cases hfirst : earlier.find? (·.qualifiedName = occurrence.qualifiedName) with
      | some first =>
          rw [hfirst] at hname
          obtain ⟨known, hknown, hspan⟩ := Option.map_eq_some_iff.mp hname
          simp only [duplicates, Occurrence.entry, hknown, hspan, Option.map_some]
          rw [hsplit, hlength]
          refine congrArg (_ :: ·) (ih seen (earlier ++ [occurrence]) fun name => ?_)
          rw [hseen name, List.find?_append]
          by_cases heq : occurrence.qualifiedName = name
          · rw [← heq, hfirst]
            rfl
          · simp [heq]
      | none =>
          rw [hfirst, Option.map_none, Option.map_eq_none_iff] at hname
          simp only [duplicates, Occurrence.entry, hname, Option.map_none]
          rw [hsplit, hlength]
          refine ih _ (earlier ++ [occurrence]) fun name => ?_
          rw [List.find?_append, List.find?_cons]
          by_cases heq : occurrence.qualifiedName = name
          · rw [← heq, hfirst]
            simp
          · have hbeq : (occurrence.qualifiedName == name) = false := by simpa using heq
            simp only [hbeq, hseen name]
            simp [heq]

theorem duplicates_eq_nil {seen named : List (String × Span)} :
    duplicates seen named = [] ↔
      (named.map (·.1)).Nodup ∧ ∀ entry ∈ named, ∀ first ∈ seen, first.1 ≠ entry.1 := by
  induction named generalizing seen with
  | nil => simp [duplicates]
  | cons entry named ih =>
      obtain ⟨name, span⟩ := entry
      cases hfirst : seen.find? (·.1 == name) with
      | some first =>
          have hmem := List.mem_of_find?_eq_some hfirst
          have hname : first.1 = name := by simpa using List.find?_some hfirst
          simp only [duplicates, hfirst]
          constructor
          · intro h
            cases h
          · rintro ⟨_, hdistinct⟩
            exact absurd hname (hdistinct _ List.mem_cons_self first hmem)
      | none =>
          have hnone : ∀ first ∈ seen, first.1 ≠ name := by simpa using hfirst
          simp only [duplicates, hfirst, ih, List.map_cons, List.nodup_cons]
          constructor
          · rintro ⟨hnodup, hdistinct⟩
            refine ⟨⟨?_, hnodup⟩, ?_⟩
            · intro hmem
              obtain ⟨other, hother, heq⟩ := List.mem_map.mp hmem
              exact hdistinct other hother _ List.mem_cons_self heq.symm
            · intro entry hentry first hmem
              rcases List.mem_cons.mp hentry with rfl | hentry
              · exact hnone first hmem
              · exact hdistinct entry hentry first (List.mem_cons_of_mem _ hmem)
          · rintro ⟨⟨hnew, hnodup⟩, hdistinct⟩
            refine ⟨hnodup, fun entry hentry first hmem => ?_⟩
            rcases List.mem_cons.mp hmem with rfl | hmem
            · exact fun heq => hnew (List.mem_map.mpr ⟨entry, hentry, heq.symm⟩)
            · exact hdistinct entry (List.mem_cons_of_mem _ hentry) first hmem

theorem repetitions_eq_duplicates (found : List Occurrence) :
    repetitions found = duplicates [] (found.map Occurrence.entry) := by
  rw [duplicates_eq_filterMap [] [] found fun _ => rfl]
  rfl

end Repetitions

section Selection

variable {options : SelectionOptions}

-- The selected types of a list, in its order.
def selectedAmong (options : SelectionOptions) (occurrences : List Occurrence) : List Occurrence :=
  occurrences.filter fun occurrence => (occurrence.description options).type.isSome

theorem described_types (occurrences : List Occurrence) :
    ((occurrences.map (·.description options)).filterMap (·.type)).map
        (fun type => (type.qualifiedName, type.pieces)) =
      (selectedAmong options occurrences).map fun occurrence =>
        (occurrence.qualifiedName, occurrence.pieces options) := by
  induction occurrences with
  | nil => rfl
  | cons occurrence occurrences ih =>
      unfold selectedAmong at ih ⊢
      rw [List.map_cons, List.filterMap_cons]
      cases htype : (occurrence.description options).type with
      | none =>
          rw [List.filter_cons_of_neg (by simp [htype])]
          exact ih
      | some type =>
          obtain ⟨hname, hpieces⟩ := description_type_eq htype
          rw [List.filter_cons_of_pos (by simp [htype]), List.map_cons, List.map_cons, ← hname,
            ← hpieces, ih]

theorem described_entries (occurrences : List Occurrence) :
    ((occurrences.map (·.description options)).filterMap fun description =>
        description.type.map fun type => (type.qualifiedName, description.span)) =
      (selectedAmong options occurrences).map Occurrence.entry := by
  induction occurrences with
  | nil => rfl
  | cons occurrence occurrences ih =>
      unfold selectedAmong at ih ⊢
      rw [List.map_cons, List.filterMap_cons]
      cases htype : (occurrence.description options).type with
      | none =>
          rw [List.filter_cons_of_neg (by simp [htype])]
          exact ih
      | some type =>
          obtain ⟨hname, _⟩ := description_type_eq htype
          rw [List.filter_cons_of_pos (by simp [htype]), List.map_cons, Occurrence.entry, ← hname,
            ← @description_span options, ← ih]
          rfl

theorem mem_selectedAmong {tree : DeclarationTree} {occurrence : Occurrence} :
    occurrence ∈ selectedAmong options (occurrencesOf 0 tree.entities) ↔
      tree.Holds occurrence ∧ occurrence.Selected options := by
  rw [selectedAmong, List.mem_filter, DeclarationTree.mem_occurrencesOf, description_type_isSome]

theorem select_outcome (tree : DeclarationTree) :
    (tree.select options).outcome =
      let described := (occurrencesOf 0 tree.entities).map (·.description options)
      let repeated := repetitions (selectedAmong options (occurrencesOf 0 tree.entities))
      if repeated.isEmpty then
        .ok ⟨described.filterMap (·.type), described.flatMap (·.findings)⟩
      else .error repeated := by
  unfold DeclarationTree.select
  rw [candidatesOf_eq_map, List.map_map]
  dsimp only
  rw [repetitions_eq_duplicates, ← described_entries]
  rfl

theorem repetitions_eq_nil {found : List Occurrence} :
    repetitions found = [] ↔ (found.map Occurrence.qualifiedName).Nodup := by
  rw [repetitions_eq_duplicates, duplicates_eq_nil, List.map_map]
  simp [Function.comp_def, Occurrence.entry]

-- The selection gives the selected types of the tree from top to bottom. If a name comes up again,
-- it fails instead, with one finding for every further type of the name.
theorem select_eq_reference (tree : DeclarationTree) (options : SelectionOptions) :
    ∃ found : List Occurrence,
      found.Pairwise (fun first second => first.position < second.position) ∧
      (∀ occurrence, occurrence ∈ found ↔ tree.Holds occurrence ∧ occurrence.Selected options) ∧
      ((found.map Occurrence.qualifiedName).Nodup →
        ∃ selected, (tree.select options).outcome = .ok selected ∧
          selected.types.map (fun type => (type.qualifiedName, type.pieces)) =
            found.map fun occurrence => (occurrence.qualifiedName, occurrence.pieces options)) ∧
      (¬(found.map Occurrence.qualifiedName).Nodup →
        (tree.select options).outcome = .error (repetitions found)) := by
  have houtcome := @select_outcome options tree
  refine ⟨selectedAmong options (occurrencesOf 0 tree.entities),
    (occurrencesOf_pairwise tree.entities).filter _, fun _ => mem_selectedAmong,
    fun hnodup => ?_, fun hrepeated => ?_⟩
  · rw [repetitions_eq_nil.mpr hnodup] at houtcome
    exact ⟨_, houtcome, described_types _⟩
  · have hne := mt repetitions_eq_nil.mp hrepeated
    rw [if_neg (by simpa using hne)] at houtcome
    exact houtcome

-- A type in a namespace with the empty name, which can be given in a tree though not in a header.
def underEmptyName : DeclarationTree :=
  ⟨[.namespaceDecl ⟨some "", false, ⟨0, 0⟩⟩
    [.classDecl ⟨some "X", .structKey, true, false, [⟨.attribute, "refl", ⟨0, 0⟩⟩], ⟨0, 0⟩⟩ []]],
    ⟨0, 0⟩⟩

-- All names of the way to a type joined by `::` are not always the name it is given.
theorem select_ne_plain_join :
    ¬∃ found : List Occurrence,
      found.Pairwise (fun first second => first.position < second.position) ∧
      (∀ occurrence, occurrence ∈ found ↔
        underEmptyName.Holds occurrence ∧ occurrence.Selected .default) ∧
      ((found.map fun occurrence => "::".intercalate occurrence.names).Nodup →
        ∃ selected, (underEmptyName.select .default).outcome = .ok selected ∧
          selected.types.map (fun type => (type.qualifiedName, type.pieces)) =
            found.map fun occurrence =>
              ("::".intercalate occurrence.names, occurrence.pieces .default)) ∧
      (¬(found.map fun occurrence => "::".intercalate occurrence.names).Nodup →
        ∃ errors, (underEmptyName.select .default).outcome = .error errors) := by
  rintro ⟨found, _, hfound, hdistinct, hrepeated⟩
  have houtcome : ((underEmptyName.select .default).outcome.toOption.map fun selected =>
      selected.types.map (·.qualifiedName)) = some ["X"] := by decide +kernel
  by_cases hnodup : (found.map fun occurrence => "::".intercalate occurrence.names).Nodup
  · obtain ⟨selected, hok, htypes⟩ := hdistinct hnodup
    have hnames : found.map (fun occurrence => "::".intercalate occurrence.names) = ["X"] := by
      have hfirst := congrArg (List.map Prod.fst) htypes
      rw [hok] at houtcome
      rw [List.map_map, List.map_map] at hfirst
      exact hfirst.symm.trans (Option.some.inj houtcome)
    -- the type stands there under the names `` and `X`
    have hmem : ⟨[0, 0], ["", "X"], .classType
        ⟨some "X", .structKey, true, false, [⟨.attribute, "refl", ⟨0, 0⟩⟩], ⟨0, 0⟩⟩ []⟩ ∈ found := by
      refine (hfound _).mpr ⟨⟨0, _, [0], rfl, rfl, .inNamespace rfl (.classType rfl rfl rfl)⟩,
        ⟨⟨_, List.mem_singleton.mpr rfl, rfl⟩, ?_⟩⟩
      rintro key ⟨⟩
      decide +kernel
    have hname := List.mem_map_of_mem (f := fun occurrence : Occurrence =>
      "::".intercalate occurrence.names) hmem
    rw [hnames] at hname
    exact absurd hname (by decide)
  · obtain ⟨errors, herror⟩ := hrepeated hnodup
    rw [herror] at houtcome
    cases houtcome

end Selection

end Reflection
