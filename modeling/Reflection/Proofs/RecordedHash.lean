import Reflection.Proofs.Descriptor.Records
import Reflection.Digest
import Reflection.Proofs.Text
import Reflection.RecordedHash

namespace Reflection

namespace Cpp

theorem toList_line (first second : String) :
    (line 0 (first ++ second)).toList = first.toList ++ second.toList ++ ['\n'] := by
  simp [line]

theorem toList_line_between (first second third : String) :
    (line 0 (first ++ second ++ third)).toList =
      first.toList ++ (second.toList ++ third.toList) ++ ['\n'] := by
  simp [line]

theorem toList_concat (texts : List String) :
    ("".intercalate texts).toList = texts.flatMap String.toList := by
  rw [String.toList_intercalate]
  induction texts with
  | nil => rfl
  | cons text texts ih =>
      cases texts with
      | nil => simp
      | cons other texts =>
          rw [List.map_cons, List.map_cons] at *
          simp_all

-- The beginning and the end of the line that names the source.
def sourceMark : List Char := "// Generated by reflgen from ".toList

def sourceEnd : List Char := ". Do not edit.".toList

def sourceLine (artifact : Artifact) : List Char :=
  sourceMark ++ (artifact.source.toList ++ sourceEnd)

-- The line that records the digest, if there is one.
def hashComments (artifact : Artifact) : List (List Char) :=
  artifact.sourceHash.toList.map fun hash => hashMarker.toList ++ hash.toList

-- The comments end where the first directive stands.
theorem toList_renderCpp (artifact : Artifact) (options : CppOptions) :
    ∃ rest, (artifact.renderCpp options).toList =
      sourceLine artifact ++ '\n' :: ((hashComments artifact).flatMap (· ++ ['\n']) ++
        ("#pragma once".toList ++ '\n' :: rest)) := by
  have hsource : (line 0 ("// Generated by reflgen from " ++ artifact.source ++
      ". Do not edit.")).toList = sourceLine artifact ++ ['\n'] := toList_line_between _ _ _
  have hpragma : (line 0 "#pragma once").toList = "#pragma once".toList ++ ['\n'] := rfl
  have hhash : (hashLines artifact.sourceHash).flatMap String.toList =
      (hashComments artifact).flatMap (· ++ ['\n']) := by
    cases hrecorded : artifact.sourceHash with
    | none => simp [hashLines, hashComments, hrecorded]
    | some hash => simp [hashLines, hashComments, hrecorded, toList_line]
  rw [Artifact.renderCpp, toList_concat, artifactLines]
  simp only [List.flatMap_append, List.flatMap_cons, hsource, hhash, hpragma, List.append_assoc,
    List.cons_append, List.nil_append]
  exact ⟨_, rfl⟩

theorem lines_renderCpp {artifact : Artifact} (hsource : '\n' ∉ artifact.source.toList)
    (hhash : ∀ hash ∈ artifact.sourceHash, ∀ c ∈ hash.toList, Text.isBlank c = false)
    (options : CppOptions) :
    ∃ more, Text.lines (artifact.renderCpp options).toList =
      sourceLine artifact :: (hashComments artifact ++ "#pragma once".toList :: more) := by
  obtain ⟨rest, htext⟩ := toList_renderCpp artifact options
  have hline : '\n' ∉ sourceLine artifact := by
    have hmark : '\n' ∉ sourceMark := by decide
    have hend : '\n' ∉ sourceEnd := by decide
    simp only [sourceLine, List.mem_append, not_or]
    exact ⟨hmark, hsource, hend⟩
  have hlast : (sourceLine artifact).getLast? ≠ some '\r' := by
    have hend : sourceEnd.getLast? = some '.' := by decide
    rw [sourceLine, ← List.append_assoc, List.getLast?_append, hend]
    simp
  have hpragma : Text.lines ("#pragma once".toList ++ '\n' :: rest) =
      "#pragma once".toList :: Text.lines rest := Text.lines_append (by decide) (by decide) rest
  rw [htext, Text.lines_append hline hlast]
  cases hrecorded : artifact.sourceHash with
  | none =>
      rw [hashComments, hrecorded]
      exact ⟨_, congrArg _ hpragma⟩
  | some hash =>
      have hmarker {c : Char} (hc : Text.isBlank c = true) (hmem : c ∉ hashMarker.toList) :
          c ∉ hashMarker.toList ++ hash.toList := fun hboth => by
        obtain hmarker | hhash' := List.mem_append.mp hboth
        · exact hmem hmarker
        · rw [hhash hash hrecorded c hhash'] at hc
          cases hc
      have hfeed := @hmarker '\n' (by decide) (by decide)
      have hreturn := @hmarker '\r' (by decide) (by decide)
      have hcomment := Text.lines_append hfeed
        (fun hlast => hreturn (List.mem_of_getLast? hlast)) ("#pragma once".toList ++ '\n' :: rest)
      refine ⟨Text.lines rest, ?_⟩
      rw [hashComments, hrecorded, Option.toList_some, List.map_singleton, List.flatMap_singleton,
        List.append_assoc, List.singleton_append, hcomment, hpragma]
      rfl

end Cpp

namespace RecordedHash

theorem inComment_renderCpp {artifact : Artifact} (hsource : '\n' ∉ artifact.source.toList)
    (hhash : ∀ hash ∈ artifact.sourceHash, ∀ c ∈ hash.toList, Text.isBlank c = false)
    (options : CppOptions) :
    inComment (artifact.renderCpp options).toList = artifact.sourceHash.map String.toList := by
  obtain ⟨more, hlines⟩ := Cpp.lines_renderCpp hsource hhash options
  -- the line of the source is passed over, and the directive ends the comments
  have hsourceLine : Text.after? hashMarker.toList (Cpp.sourceLine artifact) = none := rfl
  have hpragma : ("#pragma once".toList :: more).takeWhile ['/', '/'].isPrefixOf = [] :=
    List.takeWhile_cons_of_neg (by decide)
  rw [inComment, hlines, List.takeWhile_cons_of_pos rfl]
  cases hrecorded : artifact.sourceHash with
  | none =>
      rw [Cpp.hashComments, hrecorded, Option.toList_none, List.map_nil, List.nil_append, hpragma,
        List.findSome?_cons, hsourceLine]
      rfl
  | some hash =>
      rw [Cpp.hashComments, hrecorded, Option.toList_some, List.map_singleton,
        List.singleton_append, List.takeWhile_cons_of_pos rfl, hpragma, List.findSome?_cons,
        hsourceLine, List.findSome?_cons, Text.after?_append, Option.map_some, Option.map_some,
        Text.trim_of_forall (hhash hash hrecorded)]

-- A comment is no JSON.
theorem inJson_slash (text : List Char) : inJson ('/' :: text) = none := by
  have hvalue : (Json.parse ('/' :: text)).content = .flawed (.ofFault .invalid) := by
    simp [Json.parse, Json.value, Json.isSpace]
  rw [inJson, Json.read, hvalue]
  rfl

end RecordedHash

theorem recordedHash_renderCpp {artifact : Artifact} (hsource : '\n' ∉ artifact.source.toList)
    (hhash : ∀ hash ∈ artifact.sourceHash, ∀ c ∈ hash.toList, Text.isBlank c = false)
    (options : CppOptions) :
    recordedHash (artifact.renderCpp options).toList = artifact.sourceHash.map String.toList := by
  rw [recordedHash, RecordedHash.inComment_renderCpp hsource hhash options]
  cases artifact.sourceHash with
  | some hash => rfl
  | none =>
      obtain ⟨rest, htext⟩ := Cpp.toList_renderCpp artifact options
      rw [htext]
      exact RecordedHash.inJson_slash _

-- A text that does not start with a slash starts with no comment.
theorem RecordedHash.inComment_eq_none {c : Char} (hc : c ≠ '/') (text : List Char) :
    inComment (c :: text) = none := by
  have hempty (more : List (List Char)) :
      ([] :: more).takeWhile ['/', '/'].isPrefixOf = [] := rfl
  have hline (line : List Char) (more : List (List Char)) :
      ((c :: line) :: more).takeWhile ['/', '/'].isPrefixOf = [] := by
    rw [List.takeWhile_cons_of_neg]
    simp [List.isPrefixOf, Ne.symm hc]
  have hlines : (Text.lines (c :: text)).takeWhile ['/', '/'].isPrefixOf = [] := by
    by_cases hbreak : ∃ more, c :: text = '\r' :: '\n' :: more
    · obtain ⟨more, hmore⟩ := hbreak
      rw [hmore]
      exact hempty _
    · rw [Text.lines.eq_3 _ _ fun more hreturn hfeed => hbreak ⟨more, by rw [hreturn, hfeed]⟩]
      split
      · exact hempty _
      · split
        · exact hline _ _
        · exact hline _ _
  rw [inComment, hlines]
  rfl

-- Of the fields of an artifact only one has the name under which the digest is looked for, whatever
-- names and texts stand in its types.
theorem Artifact.ofJson_toJson (artifact : Artifact) :
    RecordedHash.ofJson artifact.toJson = artifact.sourceHash.map String.toList := by
  cases hrecorded : artifact.sourceHash with
  | none =>
      have hfields : artifact.toJson = .object
          [(.spelled (Json.escape "source".toList), .ofString artifact.source),
            (.spelled (Json.escape "types".toList),
              .array (artifact.types.map TypeDescriptor.toJson))] := by
        rw [toJson, hashField, hrecorded]
        rfl
      rw [hfields, RecordedHash.ofJson, RecordedHash.ofFields]
      simp only [List.reverse_cons, List.reverse_nil, List.nil_append, List.cons_append,
        List.find?_cons, Json.text_spelled]
      rfl
  | some hash =>
      have hfields : artifact.toJson = .object
          [(.spelled (Json.escape "source".toList), .ofString artifact.source),
            (.spelled (Json.escape "source_hash".toList), .ofString hash),
            (.spelled (Json.escape "types".toList),
              .array (artifact.types.map TypeDescriptor.toJson))] := by
        rw [toJson, hashField, hrecorded]
        rfl
      rw [hfields, RecordedHash.ofJson, RecordedHash.ofFields]
      simp only [List.reverse_cons, List.reverse_nil, List.nil_append, List.cons_append,
        List.find?_cons, Json.text_spelled]
      exact Json.textOf?_escape hash.toList

theorem recordedHash_renderJson (artifact : Artifact) :
    recordedHash artifact.renderJson = artifact.sourceHash.map String.toList := by
  have hcomment : RecordedHash.inComment artifact.renderJson = none := by
    obtain ⟨text, htext⟩ : ∃ text, artifact.renderJson = '{' :: text := by
      rw [Artifact.renderJson, Json.toText, Artifact.toJson]
      exact ⟨_, rfl⟩
    rw [htext]
    exact RecordedHash.inComment_eq_none (by decide) text
  have hread : artifact.toJson.readable Json.maxDepth = .ok () :=
    artifact.shallow_toJson.1.readable (artifact.shallow_toJson.2.trans (by decide))
  rw [recordedHash, hcomment]
  dsimp only
  rw [RecordedHash.inJson, Artifact.renderJson,
    Json.read_print artifact.shallow_toJson.1 .indented (List.all_eq_true.mp rfl), hread]
  exact artifact.ofJson_toJson

theorem recordedHash_render {artifact : Artifact} (hsource : '\n' ∉ artifact.source.toList)
    (hhash : ∀ hash ∈ artifact.sourceHash, ∀ c ∈ hash.toList, Text.isBlank c = false)
    (format : OutputFormat) (options : CppOptions) :
    recordedHash (artifact.render format options).toList =
      artifact.sourceHash.map String.toList := by
  cases format with
  | cpp => exact recordedHash_renderCpp hsource hhash options
  | json =>
      rw [Artifact.render, String.toList_ofList]
      exact recordedHash_renderJson artifact

section Digests

open Metadata.Literal (isHex)

theorem isBlank_of_isHex {c : Char} (h : isHex c = true) : Text.isBlank c = false := by
  have hcode : 48 ≤ c.toNat ∧ c.toNat ≤ 57 ∨ 97 ≤ c.toNat ∧ c.toNat ≤ 102 ∨
      65 ≤ c.toNat ∧ c.toNat ≤ 70 := by
    simpa [isHex, Char.isDigit, Char.le_def, UInt32.le_iff_toNat_le, or_assoc] using h
  have hranges : ∀ code < 103, 48 ≤ code →
      Text.blankRanges.any (fun range => range.1 ≤ code && code ≤ range.2) = false := by decide
  exact hranges c.toNat (by omega) (by omega)

theorem Digest.isHex_hexDigits (byte : UInt8) : ∀ c ∈ hexDigits byte, isHex c = true := by
  have hdigit : ∀ value < 16, isHex (Nat.digitChar value) = true := by decide
  have hbyte : byte.toNat < 256 := byte.toNat_lt
  intro c hmem
  simp only [hexDigits, List.mem_cons, List.not_mem_nil, or_false] at hmem
  obtain rfl | rfl := hmem
  · exact hdigit _ (by omega)
  · exact hdigit _ (by omega)

theorem isHex_sourceHash (bytes : ByteArray) : ∀ c ∈ (sourceHash bytes).toList, isHex c = true := by
  intro c hmem
  rw [sourceHash, Digest.hexadecimal, String.toList_ofList] at hmem
  obtain ⟨byte, _, hdigit⟩ := List.mem_flatMap.mp hmem
  exact Digest.isHex_hexDigits byte c hdigit

-- What is found in the text of an artifact is the digest that was recorded, and nothing if there
-- was none, whatever the names and metadata of its types and the options are.
theorem recordedHash_eq_sourceHash {artifact : Artifact} (hsource : '\n' ∉ artifact.source.toList)
    (hhash : ∀ hash ∈ artifact.sourceHash, ∀ c ∈ hash.toList, isHex c = true)
    (format : OutputFormat) (options : CppOptions) :
    recordedHash (artifact.render format options).toList =
      artifact.sourceHash.map String.toList :=
  recordedHash_render hsource (fun hash hmem c hc => isBlank_of_isHex (hhash hash hmem c hc)) format
    options

-- Metadata, names and options that look like a digest.
def disguised : Artifact :=
  ⟨"a.hpp", none, [⟨"source_hash", [⟨"source_hash", "\n// reflgen source-hash: 11"⟩],
    .enumBody [⟨"\n// reflgen source-hash: 22", .enumerator, []⟩]⟩]⟩

def disguisedOptions : CppOptions :=
  ⟨"x>\n// reflgen source-hash: 33", "source_hash", "\n// reflgen source-hash: 44"⟩

theorem recordedHash_eq_sourceHash_disguised :
    '\n' ∉ disguised.source.toList ∧
      (∀ hash ∈ (disguised.withSourceHash "0a").sourceHash, ∀ c ∈ hash.toList, isHex c = true) ∧
      recordedHash (disguised.render .cpp disguisedOptions).toList = none ∧
      recordedHash ((disguised.withSourceHash "0a").render .json disguisedOptions).toList =
        some "0a".toList := by
  have hsource : '\n' ∉ disguised.source.toList := by decide
  have hhash : ∀ hash ∈ (disguised.withSourceHash "0a").sourceHash, ∀ c ∈ hash.toList,
      isHex c = true := by
    intro hash hmem
    obtain rfl : "0a" = hash := Option.some.inj hmem
    exact List.all_eq_true.mp (by decide)
  refine ⟨hsource, hhash, ?_, ?_⟩
  · exact @recordedHash_eq_sourceHash disguised hsource (fun _ hmem => nomatch hmem) .cpp
      disguisedOptions
  · exact @recordedHash_eq_sourceHash (disguised.withSourceHash "0a") hsource hhash .json
      disguisedOptions

end Digests

end Reflection
