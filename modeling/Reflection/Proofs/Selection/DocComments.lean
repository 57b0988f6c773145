import Reflection.Proofs.Selection.Bodies
import Reflection.Proofs.Text

namespace Reflection

open Metadata (Piece pieceOfTag pieceOfLine ofDocText isTagged)

-- What stands behind the sign starts with a key.
def StartsKey (tag : List Char) : Prop := ∃ first ∈ tag.head?, Text.isBlank first = false

instance : (tag : List Char) → Decidable (StartsKey tag)
  | [] => isFalse (by simp [StartsKey])
  | first :: _ => decidable_of_iff (Text.isBlank first = false) (by simp [StartsKey])

def IsTagLine (line : List Char) : Prop :=
  ∃ tag, Text.trimStart line = '@' :: tag ∧ StartsKey tag

-- The sign with a blank or nothing behind it.
def IsBareSign (line : List Char) : Prop :=
  ∃ rest, Text.trimStart line = '@' :: rest ∧ ¬StartsKey rest

def HasTag (text : List Char) : Prop := ∃ line ∈ Text.lines text, IsTagLine line

def HasBareSign (text : List Char) : Prop := ∃ line ∈ Text.lines text, IsBareSign line

-- No line starts with the sign.
def IsProse (text : List Char) : Prop :=
  ∀ line ∈ Text.lines text, (Text.trimStart line).head? ≠ some '@'

section Lines

variable {line text : List Char}

theorem trimEnd_cons {c : Char} (h : Text.isBlank c = false) (rest : List Char) :
    Text.trimEnd (c :: rest) = c :: Text.trimEnd rest := by
  have hlast : [c].dropWhile Text.isBlank = [c] := List.dropWhile_cons_of_neg (by simp [h])
  rw [Text.trimEnd, List.reverse_cons, List.dropWhile_append, hlast, Text.trimEnd]
  split
  · next hnil =>
    rw [List.isEmpty_iff.mp hnil]
    rfl
  · rw [List.reverse_append, List.reverse_singleton, List.singleton_append]

-- Trimming at the end takes no key away.
theorem startsKey_trimEnd (text : List Char) : StartsKey (Text.trimEnd text) ↔ StartsKey text := by
  constructor
  · rintro ⟨first, hfirst, hblank⟩
    obtain ⟨more, hmore⟩ := List.head?_eq_some_iff.mp hfirst
    obtain ⟨behind, htext⟩ := Text.trimEnd_isPrefix text
    rw [hmore] at htext
    exact ⟨first, by simp [← htext], hblank⟩
  · rintro ⟨first, hfirst, hblank⟩
    obtain ⟨more, rfl⟩ := List.head?_eq_some_iff.mp hfirst
    exact ⟨first, by simp [trimEnd_cons hblank], hblank⟩

theorem pieceOfTag_isSome (tag : List Char) :
    (pieceOfTag tag).isSome = true ↔ StartsKey tag := by
  have hkey : tag.takeWhile (fun c => !Text.isBlank c) = [] ↔ ¬StartsKey tag := by
    cases tag with
    | nil => simp [StartsKey]
    | cons first more => cases hblank : Text.isBlank first <;> simp [StartsKey, hblank]
  unfold pieceOfTag
  dsimp only
  split
  · next hempty => simp [hkey.mp (List.isEmpty_iff.mp hempty)]
  · next hempty =>
    have hstarts : StartsKey tag := by
      rw [List.isEmpty_iff, hkey, not_not] at hempty
      exact hempty
    split <;> simp [hstarts]

theorem pieceOfLine_isSome : (pieceOfLine line).isSome = true ↔ IsTagLine line := by
  unfold pieceOfLine IsTagLine Text.trim
  cases hstart : Text.trimStart line with
  | nil => simp [Text.trimEnd]
  | cons c rest =>
      have hblank : Text.isBlank c = false := by
        have hhead := List.head?_dropWhile_not Text.isBlank line
        rw [← Text.trimStart, hstart] at hhead
        simpa using hhead
      rw [trimEnd_cons hblank]
      by_cases hsign : c = '@'
      · subst hsign
        simp [pieceOfTag_isSome, startsKey_trimEnd]
      · simp [hsign]

theorem isTagged_iff : isTagged line = true ↔ IsTagLine line ∨ IsBareSign line := by
  have hsign : isTagged line = true ↔ ∃ rest, Text.trimStart line = '@' :: rest := by
    rw [isTagged, decide_eq_true_iff, List.head?_eq_some_iff]
  rw [hsign]
  constructor
  · rintro ⟨rest, hrest⟩
    by_cases hkey : StartsKey rest
    · exact .inl ⟨rest, hrest, hkey⟩
    · exact .inr ⟨rest, hrest, hkey⟩
  · rintro (⟨rest, hrest, -⟩ | ⟨rest, hrest, -⟩) <;> exact ⟨rest, hrest⟩

theorem ofDocText_ne_nil : ofDocText text ≠ [] ↔ HasTag text := by
  simp only [ofDocText, ne_eq, List.filterMap_eq_nil_iff, HasTag, ← pieceOfLine_isSome,
    Option.isSome_iff_ne_none, not_forall, exists_prop]

theorem any_isTagged : (Text.lines text).any isTagged = true ↔ HasTag text ∨ HasBareSign text := by
  simp only [List.any_eq_true, isTagged_iff, HasTag, HasBareSign, and_or_left, exists_or]

theorem IsProse.not_marked (h : IsProse text) : ¬(HasTag text ∨ HasBareSign text) := by
  rintro (⟨line, hmem, rest, hrest, -⟩ | ⟨line, hmem, rest, hrest, -⟩) <;>
    exact h line hmem (by rw [hrest]; rfl)

end Lines

section Blocks

variable {annotations : List AnnotationBlock} {block : AnnotationBlock}

theorem isMarker_docComment (h : block.kind = .docComment) :
    block.isMarker = true ↔ HasTag block.text.toList ∨ HasBareSign block.text.toList := by
  rw [AnnotationBlock.isMarker, h]
  exact any_isTagged

-- Documentation that marks its declaration gives pieces, if bare signs come with a tag.
theorem collect_of_marker (options : SelectionOptions) (target : String)
    (hdoc : ∀ block ∈ annotations, block.kind = .docComment)
    (htags : ∀ block ∈ annotations, HasBareSign block.text.toList → HasTag block.text.toList)
    (h : hasMarker annotations = true) : (options.collect target annotations).1 ≠ [] := by
  obtain ⟨block, hmem, hmarker⟩ := List.any_eq_true.mp h
  have htag : HasTag block.text.toList :=
    ((isMarker_docComment (hdoc block hmem)).mp hmarker).elim id (htags block hmem)
  have hpieces : options.piecesOf block = ofDocText block.text.toList := by
    rw [SelectionOptions.piecesOf, AnnotationBlock.pieces, hdoc block hmem]
  rw [collect_eq_flatMap]
  intro hnil
  have hempty := List.flatMap_eq_nil_iff.mp hnil block hmem
  exact ofDocText_ne_nil.mpr htag (hpieces.symm.trans hempty)

theorem not_hasMarker_of_prose (hdoc : ∀ block ∈ annotations, block.kind = .docComment)
    (hprose : ∀ block ∈ annotations, IsProse block.text.toList) :
    hasMarker annotations = false := by
  rw [Bool.eq_false_iff]
  intro h
  obtain ⟨block, hmem, hmarker⟩ := List.any_eq_true.mp h
  exact (hprose block hmem).not_marked ((isMarker_docComment (hdoc block hmem)).mp hmarker)

theorem hasMarker_of_includes {options : SelectionOptions} {access : Access}
    (honly : options.annotatedOnly = true) (h : options.includes annotations access = true) :
    hasMarker annotations = true :=
  List.any_eq_true.mpr ((includes_iff.mp h).2 honly)

end Blocks

-- A documentation comment marks its declaration exactly if it gives a piece, but for comments that
-- have a bare sign and no tag. Without such comments, all that is selected for its documentation
-- has a piece. Prose selects nothing.
theorem docComment_marks_iff (options : SelectionOptions) :
    (∀ (text : String) (span : Span),
      ((⟨.docComment, text, span⟩ : AnnotationBlock).isMarker = true ↔
          ofDocText text.toList ≠ []) ↔
        (HasBareSign text.toList → HasTag text.toList)) ∧
      ∀ annotations : List AnnotationBlock, (∀ block ∈ annotations, block.kind = .docComment) →
        ((∀ block ∈ annotations, HasBareSign block.text.toList → HasTag block.text.toList) →
          (∀ (candidate : Candidate) (type : TypeDescriptor),
            candidate.decl.annotations = annotations →
              (candidate.describe options).type = some type → type.pieces ≠ []) ∧
          ∀ owner name kind access, options.annotatedOnly = true →
            options.includes annotations access = true →
              (options.describeMember owner name kind annotations).1.pieces ≠ []) ∧
        ((∀ block ∈ annotations, IsProse block.text.toList) →
          (∀ candidate : Candidate, candidate.decl.annotations = annotations →
            (candidate.describe options).type = none) ∧
          ∀ access, options.annotatedOnly = true →
            options.includes annotations access = false) := by
  refine ⟨fun text span => ?_, fun annotations hdoc => ⟨fun htags => ⟨?_, ?_⟩, fun hprose => ?_⟩⟩
  · rw [isMarker_docComment rfl, ofDocText_ne_nil]
    tauto
  · rintro candidate type rfl htype
    obtain ⟨hmarker, rfl⟩ := describe_type htype
    exact collect_of_marker options _ hdoc htags hmarker
  · intro owner name kind access honly hincludes
    exact collect_of_marker options _ hdoc htags (hasMarker_of_includes honly hincludes)
  · have hmarker := not_hasMarker_of_prose hdoc hprose
    refine ⟨?_, fun access honly => ?_⟩
    · rintro candidate rfl
      exact Option.eq_none_iff_forall_ne_some.mpr fun type htype =>
        Bool.false_ne_true (hmarker.symm.trans (describe_type htype).1)
    · rw [SelectionOptions.includes, honly, hmarker]
      simp

-- A class with this documentation.
def documented (text : String) : Candidate :=
  ⟨"T", .classType ⟨some "T", .classKey, true, false, [⟨.docComment, text, ⟨0, 0⟩⟩], ⟨0, 0⟩⟩ []⟩

theorem docComment_marks_iff_tag :
    (HasBareSign "@\n a@b\n  @doc x".toList ∧ HasTag "@\n a@b\n  @doc x".toList ∧
        IsProse " a@b".toList) ∧
      ((⟨.docComment, "@\n a@b\n  @doc x", ⟨0, 0⟩⟩ : AnnotationBlock).isMarker = true ↔
        ofDocText "@\n a@b\n  @doc x".toList ≠ []) ∧
      (∃ type, ((documented "@\n a@b\n  @doc x").describe ⟨none, true, false, .nothing⟩).type =
        some type ∧ type.pieces ≠ []) ∧
      ((documented " a@b").describe ⟨none, true, false, .nothing⟩).type = none := by
  have hsign : HasBareSign "@\n a@b\n  @doc x".toList :=
    ⟨['@'], by decide +kernel, [], by decide, by decide⟩
  have htag : HasTag "@\n a@b\n  @doc x".toList :=
    ⟨"  @doc x".toList, by decide +kernel, "doc x".toList, by decide, by decide⟩
  have hprose : IsProse " a@b".toList := by
    rw [IsProse]
    decide
  obtain ⟨htext, hall⟩ := docComment_marks_iff ⟨none, true, false, .nothing⟩
  obtain ⟨type, htype⟩ := Option.isSome_iff_exists.mp
    (show ((documented "@\n a@b\n  @doc x").describe
      ⟨none, true, false, .nothing⟩).type.isSome = true by decide +kernel)
  refine ⟨⟨hsign, htag, hprose⟩, (htext _ _).mpr fun _ => htag, ⟨type, htype, ?_⟩, ?_⟩
  · have hblocks := hall [⟨.docComment, "@\n a@b\n  @doc x", ⟨0, 0⟩⟩] (by decide)
    exact (hblocks.1 fun _ hmem _ => List.mem_singleton.mp hmem ▸ htag).1 _ type rfl htype
  · have hblocks := hall [⟨.docComment, " a@b", ⟨0, 0⟩⟩] (by decide)
    exact (hblocks.2 fun _ hmem => List.mem_singleton.mp hmem ▸ hprose).1 (documented " a@b") rfl

-- A lone sign marks its declaration: it is selected without a piece.
theorem docComment_marks_bare :
    (⟨.docComment, "@", ⟨0, 0⟩⟩ : AnnotationBlock).isMarker = true ∧ ofDocText "@".toList = [] ∧
      ((documented "@").describe ⟨none, true, false, .nothing⟩).type =
        some ⟨"T", [], .emptyClass⟩ := by
  decide +kernel

end Reflection
