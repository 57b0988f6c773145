import Reflection.Proofs.Metadata.JoinedText
import Reflection.Proofs.Selection.Findings

namespace Reflection

open Metadata (Piece HasItems EndsInComma joined ofAttributeText)

-- One block with the items of several.
def joinedBlock (span : Span) (blocks : List AnnotationBlock) : AnnotationBlock :=
  ⟨.attribute, String.ofList (joined (blocks.map (·.text.toList))), span⟩

section Collecting

variable {options : SelectionOptions} {target : String}

theorem collect_append (front back : List AnnotationBlock) :
    options.collect target (front ++ back) =
      ((options.collect target front).1 ++ (options.collect target back).1,
        (options.collect target front).2 ++ (options.collect target back).2) := by
  apply Prod.ext
  · simp only [collect_eq_flatMap, List.flatMap_append]
  · simp only [collect_findings, malformedAmong, List.filterMap_append]

-- Blocks that are all read.
theorem collect_of_pieces {blocks : List AnnotationBlock} {found : List (List Piece)}
    (h : List.Forall₂ (fun block pieces => block.pieces = .ok pieces) blocks found) :
    options.collect target blocks = (found.flatten, []) := by
  induction h with
  | nil => rfl
  | cons hfirst _ ih => rw [SelectionOptions.collect, hfirst, ih, List.flatten_cons]

theorem pieces_of_hasItems {blocks : List AnnotationBlock} {found : List (List Piece)}
    (hkind : ∀ block ∈ blocks, block.kind = .attribute)
    (h : List.Forall₂ HasItems (blocks.map (·.text.toList)) found) :
    List.Forall₂ (fun block pieces => block.pieces = .ok pieces) blocks found := by
  rw [List.forall₂_map_left_iff] at h
  induction h with
  | nil => exact .nil
  | cons hfirst _ ih =>
      rw [List.forall_mem_cons] at hkind
      refine .cons ?_ (ih hkind.2)
      rw [AnnotationBlock.pieces, hkind.1]
      exact hfirst.read

end Collecting

-- The pieces of texts that are joined by commas are those of the texts, one after the other, and
-- so are those of attribute blocks that are joined into one. No text may end in a comma, but
-- perhaps the last one.
theorem joined_attributes {texts : List (List Char)} {found : List (List Piece)}
    (hitems : List.Forall₂ HasItems texts found)
    (hcomma : ∀ text ∈ texts.dropLast, ¬EndsInComma text) :
    ofAttributeText (joined texts) = .ok found.flatten ∧
      ∀ blocks : List AnnotationBlock, (∀ block ∈ blocks, block.kind = .attribute) →
        blocks.map (·.text.toList) = texts →
        ∀ (options : SelectionOptions) (target : String) (front back : List AnnotationBlock)
          (span : Span),
          options.collect target (front ++ blocks ++ back) =
              options.collect target (front ++ joinedBlock span blocks :: back) ∧
            (blocks ≠ [] → hasMarker (front ++ blocks ++ back) =
              hasMarker (front ++ joinedBlock span blocks :: back)) := by
  have hjoined := Metadata.ofAttributeText_joined hitems hcomma
  refine ⟨hjoined, fun blocks hkind htexts options target front back span => ⟨?_, fun hne => ?_⟩⟩
  · subst htexts
    have hone : options.collect target [joinedBlock span blocks] = (found.flatten, []) := by
      have hpieces : (joinedBlock span blocks).pieces = .ok found.flatten := by
        rw [AnnotationBlock.pieces, joinedBlock, String.toList_ofList, hjoined]
      simp [SelectionOptions.collect, hpieces]
    rw [List.append_cons, collect_append, collect_append, collect_append, collect_append, hone,
      collect_of_pieces (pieces_of_hasItems hkind hitems)]
  · obtain ⟨block, hmem⟩ := List.exists_mem_of_ne_nil _ hne
    have hmarker {annotations : List AnnotationBlock} {block : AnnotationBlock}
        (hmem : block ∈ annotations) (hkind : block.kind = .attribute) :
        hasMarker annotations = true :=
      List.any_eq_true.mpr ⟨block, hmem, by rw [AnnotationBlock.isMarker, hkind]⟩
    have hone : joinedBlock span blocks ∈ front ++ joinedBlock span blocks :: back := by simp
    rw [hmarker (by simp [hmem]) (hkind block hmem), hmarker hone rfl]

def splitBlocks : List AnnotationBlock :=
  [⟨.attribute, "refl, doc(\"a,b\") ", ⟨0, 20⟩⟩, ⟨.attribute, "\x7bmin: -1\x7d,", ⟨20, 36⟩⟩]

theorem joined_attributes_split :
    List.Forall₂ HasItems (splitBlocks.map (·.text.toList))
        [[Piece.marker "refl", ⟨"doc", "a,b"⟩], [⟨"min", "-1"⟩]] ∧
      (∀ text ∈ (splitBlocks.map (·.text.toList)).dropLast, ¬EndsInComma text) ∧
      ofAttributeText "refl, doc(\"a,b\") ,\x7bmin: -1\x7d,".toList =
        .ok [Piece.marker "refl", ⟨"doc", "a,b"⟩, ⟨"min", "-1"⟩] ∧
      SelectionOptions.default.collect "T" splitBlocks =
        SelectionOptions.default.collect "T" [joinedBlock ⟨0, 36⟩ splitBlocks] := by
  have hitems : List.Forall₂ HasItems (splitBlocks.map (·.text.toList))
      [[Piece.marker "refl", ⟨"doc", "a,b"⟩], [⟨"min", "-1"⟩]] :=
    .cons ⟨eq_ok_of_toOption (by decide +kernel), by decide, by decide⟩
      (.cons ⟨eq_ok_of_toOption (by decide +kernel), by decide, by decide⟩ .nil)
  have hcomma : ∀ text ∈ (splitBlocks.map (·.text.toList)).dropLast, ¬EndsInComma text := by
    decide
  obtain ⟨hjoined, hblocks⟩ := joined_attributes hitems hcomma
  exact ⟨hitems, hcomma, hjoined, (hblocks splitBlocks (by decide) rfl _ "T" [] [] ⟨0, 36⟩).1⟩

-- Neither of these texts has a comma as its last character, but behind the first one there would
-- be two of them.
theorem not_joined_of_blank :
    (∀ text ∈ ["a, ".toList, "b".toList], text.getLast? ≠ some ',') ∧
      List.Forall₂ HasItems ["a, ".toList, "b".toList] [[Piece.marker "a"], [Piece.marker "b"]] ∧
      joined ["a, ".toList, "b".toList] = "a, ,b".toList ∧
      (ofAttributeText "a, ,b".toList).toOption = none := by
  refine ⟨by decide, .cons ⟨eq_ok_of_toOption (by decide +kernel), by decide, by decide⟩
    (.cons ⟨eq_ok_of_toOption (by decide +kernel), by decide, by decide⟩ .nil), by decide,
    by decide +kernel⟩

end Reflection
