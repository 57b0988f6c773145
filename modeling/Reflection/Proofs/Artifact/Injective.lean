import Mathlib.Data.List.Infix
import Reflection.Header.Token
import Reflection.Proofs.Metadata.Literal
import Reflection.Proofs.RecordedHash
import Reflection.Proofs.Scanning
import Reflection.Proofs.Selection.Members

namespace Reflection

open Metadata (Piece)

variable {α : Type}

-- What is written for a value tells the value and where it ends, whatever follows.
def SelfDelimiting (valid : α → Prop) (write : α → List Char) : Prop :=
  ∀ ⦃one other : α⦄ ⦃rest more : List Char⦄, valid one → valid other →
    write one ++ rest = write other ++ more → one = other ∧ rest = more

section SelfDelimiting

-- A text that goes up to a character it does not hold.
theorem append_stop_inj {stop : Char} {one other rest more : List Char} (hone : stop ∉ one)
    (hother : stop ∉ other) (h : one ++ stop :: rest = other ++ stop :: more) :
    one = other ∧ rest = more := by
  have hsplit {text : List Char} (htext : stop ∉ text) (after : List Char) :
      (text ++ stop :: after).takeWhile (· ≠ stop) = text := by
    rw [takeWhile_append_stop (by simp), List.takeWhile_eq_self_iff]
    intro c hc
    exact decide_eq_true fun heq => htext (heq ▸ hc)
  have hsame := congrArg (List.takeWhile (· ≠ stop)) h
  rw [hsplit hone, hsplit hother] at hsame
  subst hsame
  exact ⟨rfl, (List.cons.inj (List.append_cancel_left h)).2⟩

-- A mark that differs from the beginning of a text does not start the text.
theorem not_prefix_append {mark start : List Char} (h : ¬mark.take start.length <+: start)
    (rest : List Char) : ¬mark <+: start ++ rest := by
  intro hprefix
  have htake : mark.take start.length <+: start ++ rest := (List.take_prefix _ _).trans hprefix
  refine h (List.prefix_of_prefix_length_le htake (List.prefix_append start rest) ?_)
  exact List.length_take_le _ _

-- A list without a count: every element starts with the same mark, and what follows the list does
-- not.
theorem flatMap_inj {valid : α → Prop} {write : α → List Char} {mark : List Char}
    (hwrite : SelfDelimiting valid write) (hmark : ∀ value, mark <+: write value)
    {ones others : List α} {rest more : List Char} (hones : ∀ value ∈ ones, valid value)
    (hothers : ∀ value ∈ others, valid value) (hrest : ¬mark <+: rest) (hmore : ¬mark <+: more)
    (h : ones.flatMap write ++ rest = others.flatMap write ++ more) :
    ones = others ∧ rest = more := by
  have hstarts (value : α) (values : List α) (after : List Char) :
      mark <+: (value :: values).flatMap write ++ after := by
    rw [List.flatMap_cons, List.append_assoc]
    exact (hmark value).trans (List.prefix_append _ _)
  induction ones generalizing others with
  | nil =>
      cases others with
      | nil => exact ⟨rfl, h⟩
      | cons other others =>
          rw [List.flatMap_nil, List.nil_append] at h
          exact absurd (h ▸ hstarts other others more) hrest
  | cons one ones ih =>
      cases others with
      | nil =>
          rw [List.flatMap_nil, List.nil_append] at h
          exact absurd (h ▸ hstarts one ones rest) hmore
      | cons other others =>
          rw [List.flatMap_cons, List.flatMap_cons, List.append_assoc, List.append_assoc] at h
          obtain ⟨rfl, htail⟩ :=
            hwrite (hones one List.mem_cons_self) (hothers other List.mem_cons_self) h
          obtain ⟨rfl, hafter⟩ := ih (fun value hmem => hones value (List.mem_cons_of_mem _ hmem))
            (fun value hmem => hothers value (List.mem_cons_of_mem _ hmem)) htail
          exact ⟨rfl, hafter⟩

end SelfDelimiting

namespace Metadata.Literal

theorem selfDelimiting_encode : SelfDelimiting (fun _ => True) encode := by
  intro one other rest more _ _ h
  have hinner : inner one ++ rest = inner other ++ more := (List.cons.inj h).2
  have hlexeme := lexeme_inner one rest
  rw [hinner, lexeme_inner] at hlexeme
  have hlength : (inner one).length = (inner other).length := by
    injection hlexeme with _ hextra
    exact hextra.symm
  obtain ⟨hsame, hrest⟩ := List.append_inj hinner hlength
  have htext : encode one = encode other := by rw [encode_eq_cons, encode_eq_cons, hsame]
  refine ⟨?_, hrest⟩
  rw [← decode_encode one, htext, decode_encode]

end Metadata.Literal

namespace Cpp

-- The characters of some lines.
def chars (lines : List String) : List Char := lines.flatMap String.toList

@[simp] theorem chars_nil : chars [] = [] := rfl

@[simp] theorem chars_cons (line : String) (lines : List String) :
    chars (line :: lines) = line.toList ++ chars lines := List.flatMap_cons ..

@[simp] theorem chars_append (lines more : List String) :
    chars (lines ++ more) = chars lines ++ chars more := List.flatMap_append ..

theorem chars_flatMap (lines : α → List String) (values : List α) :
    chars (values.flatMap lines) = values.flatMap fun value => chars (lines value) :=
  List.flatMap_assoc ..

theorem toList_line_append (depth : Nat) (text : String) :
    (line depth text).toList = List.replicate depth '\t' ++ (text.toList ++ ['\n']) := by
  simp [line]

theorem toList_quote (text : String) :
    (quote text).toList = Metadata.Literal.encode text.toList := by
  simp [quote, Metadata.Literal.quote]

theorem quote_inj {one other : String} {rest more : List Char}
    (h : (quote one).toList ++ rest = (quote other).toList ++ more) :
    one = other ∧ rest = more := by
  rw [toList_quote, toList_quote] at h
  obtain ⟨htext, hrest⟩ := Metadata.Literal.selfDelimiting_encode trivial trivial h
  exact ⟨String.toList_inj.mp htext, hrest⟩

section Metadata

theorem toList_pieceLine (piece : Piece) (stop : String) :
    (line 2 ("\x7b" ++ quote piece.key ++ ", " ++ quote piece.value ++ stop)).toList =
      "\t\t\x7b".toList ++ ((quote piece.key).toList ++ (", ".toList ++
        ((quote piece.value).toList ++ (stop.toList ++ ['\n'])))) := by
  rw [toList_line_append]
  simp [List.replicate]

theorem pieceLine_inj {one other : Piece} {stop ending : String} {rest more : List Char}
    (h : (line 2 ("\x7b" ++ quote one.key ++ ", " ++ quote one.value ++ stop)).toList ++ rest =
      (line 2 ("\x7b" ++ quote other.key ++ ", " ++ quote other.value ++ ending)).toList ++ more) :
    one = other ∧ stop.toList ++ '\n' :: rest = ending.toList ++ '\n' :: more := by
  rw [toList_pieceLine, toList_pieceLine] at h
  simp only [List.append_assoc, List.append_cancel_left_eq] at h
  obtain ⟨hkey, h⟩ := quote_inj h
  obtain ⟨hvalue, h⟩ := quote_inj (List.append_cancel_left h)
  refine ⟨?_, h⟩
  cases one
  cases other
  simp_all

theorem pieceLines_cons_cons (piece next : Piece) (pieces : List Piece) :
    pieceLines (piece :: next :: pieces) =
      line 2 ("\x7b" ++ quote piece.key ++ ", " ++ quote piece.value ++ "\x7d,") ::
        pieceLines (next :: pieces) := pieceLines.eq_3 piece (next :: pieces) nofun

-- The comma behind a piece tells that there is another one.
theorem selfDelimiting_pieceLines :
    SelfDelimiting (· ≠ []) fun pieces => chars (pieceLines pieces) := by
  intro pieces others rest more hpieces hothers h
  induction pieces generalizing others with
  | nil => exact absurd rfl hpieces
  | cons piece pieces ih =>
      cases others with
      | nil => exact absurd rfl hothers
      | cons other others =>
          -- behind the last piece the line ends at once
          cases pieces with
          | nil =>
              cases others with
              | nil =>
                  simp only [pieceLines, chars_cons, chars_nil, List.append_nil] at h
                  obtain ⟨rfl, hstop⟩ := pieceLine_inj h
                  exact ⟨rfl, (List.cons.inj (List.append_cancel_left hstop)).2⟩
              | cons next others =>
                  simp only [pieceLines, chars_cons, chars_nil, List.append_nil,
                    List.append_assoc] at h
                  have hstop := (pieceLine_inj h).2
                  simp at hstop
          | cons next pieces =>
              cases others with
              | nil =>
                  simp only [pieceLines, chars_cons, chars_nil, List.append_nil,
                    List.append_assoc] at h
                  have hstop := (pieceLine_inj h).2
                  simp at hstop
              | cons second others =>
                  simp only [pieceLines_cons_cons, chars_cons, List.append_assoc] at h
                  obtain ⟨rfl, hstop⟩ := pieceLine_inj h
                  have htail := (List.cons.inj (List.append_cancel_left hstop)).2
                  obtain ⟨hpieces, hrest⟩ := ih (by simp) (by simp) htail
                  exact ⟨by rw [hpieces], hrest⟩

-- What follows the name of an array.
def arrayBody (pieces : List Piece) : List Char :=
  if pieces.isEmpty then " \x7b\x7d;\n".toList
  else "\n\t\x7b\x7b\n".toList ++ (chars (pieceLines pieces) ++ "\t\x7d\x7d;\n".toList)

theorem selfDelimiting_arrayBody : SelfDelimiting (fun _ => True) arrayBody := by
  intro pieces others rest more _ _ h
  unfold arrayBody at h
  by_cases hpieces : pieces = []
  · by_cases hothers : others = []
    · rw [hpieces, hothers] at h ⊢
      exact ⟨rfl, List.append_cancel_left h⟩
    · rw [if_pos (by simp [hpieces]), if_neg (by simp [hothers])] at h
      simp at h
  · by_cases hothers : others = []
    · rw [if_neg (by simp [hpieces]), if_pos (by simp [hothers])] at h
      simp at h
    · rw [if_neg (by simp [hpieces]), if_neg (by simp [hothers])] at h
      simp only [List.append_assoc, List.append_cancel_left_eq] at h
      obtain ⟨hsame, hrest⟩ := selfDelimiting_pieceLines hpieces hothers h
      exact ⟨hsame, List.append_cancel_left hrest⟩

theorem chars_metadataArray (variableName : String) (pieces : List Piece) :
    chars (metadataArray variableName pieces) =
      "\tinline static constexpr std::array<Meta::MetaPiece, ".toList ++
        ((toString pieces.length).toList ++ '>' :: ' ' :: (variableName.toList ++
          ' ' :: '=' :: arrayBody pieces)) := by
  unfold metadataArray arrayBody
  by_cases hpieces : pieces.isEmpty = true
  · simp [hpieces, toList_line_append]
  · simp [hpieces, toList_line_append]

theorem metadataArray_inj {one other : String} {pieces others : List Piece} {rest more : List Char}
    (hone : ' ' ∉ one.toList) (hother : ' ' ∉ other.toList)
    (h : chars (metadataArray one pieces) ++ rest = chars (metadataArray other others) ++ more) :
    (one = other ∧ pieces = others) ∧ rest = more := by
  have hcount (count : Nat) : '>' ∉ (toString count).toList := by
    intro hmem
    have hdigits : '>' ∈ Nat.toDigits 10 count := by simpa using hmem
    have hdigit := Nat.isDigit_of_mem_toDigits (by decide) (by decide) hdigits
    exact absurd hdigit (by decide)
  simp only [chars_metadataArray, List.append_assoc, List.cons_append] at h
  obtain ⟨-, hafter⟩ := append_stop_inj (hcount _) (hcount _) (List.append_cancel_left h)
  obtain ⟨hname, hbody⟩ := append_stop_inj hone hother (List.cons.inj hafter).2
  obtain ⟨hpieces, hrest⟩ := selfDelimiting_arrayBody trivial trivial (List.cons.inj hbody).2
  exact ⟨⟨String.toList_inj.mp hname, hpieces⟩, hrest⟩

end Metadata

section Accessors

-- The line that builds the description of one member.
def builderLine (typeName builder name : String) : List Char :=
  "\t\t".toList ++ (builder.toList ++ '(' :: (name.toList ++ ',' :: ' ' :: (typeName.toList ++
    (", ".toList ++ (name.toList ++ "_meta);\n".toList)))))

theorem selfDelimiting_builderLine (typeName builder : String) :
    SelfDelimiting (fun name => ',' ∉ name.toList) (builderLine typeName builder) := by
  intro one other rest more hone hother h
  simp only [builderLine, List.append_assoc, List.cons_append, List.append_cancel_left_eq] at h
  obtain ⟨hname, hafter⟩ := append_stop_inj hone hother (List.cons.inj h).2
  rw [hname] at hafter
  simp only [List.cons.injEq, true_and, List.append_cancel_left_eq] at hafter
  exact ⟨String.toList_inj.mp hname, hafter⟩

-- The beginning of a function that lists members.
def accessorStart (function : String) : List Char :=
  "\n\tinline static constexpr auto ".toList ++ (function.toList ++ "()\n".toList)

-- The tuple that such a function returns, and its end.
def accessorEnd (names : List String) : List Char :=
  "\t\treturn hana::make_tuple(".toList ++
    ((", ".intercalate (names.map (· ++ "_info()"))).toList ++ ");\n\t\x7d\n".toList)

def accessorText (typeName function builder : String) (names : List String) : List Char :=
  if names.isEmpty then []
  else accessorStart function ++ ("\t\x7b\n".toList ++
    (names.flatMap (builderLine typeName builder) ++ accessorEnd names))

theorem chars_accessorLines (typeName : String) (accessor : Accessor) :
    chars (accessorLines typeName accessor) =
      accessorText typeName accessor.function accessor.builder
        (accessor.members.map (·.name)) := by
  unfold accessorLines accessorText accessorStart accessorEnd
  by_cases hmembers : accessor.members.isEmpty = true
  · simp [hmembers]
  · have hlines : (chars (accessor.members.map fun member =>
        line 2 (accessor.builder ++ "(" ++ member.name ++ ", " ++ typeName ++ ", " ++
          member.name ++ "_meta);"))) =
        (accessor.members.map (·.name)).flatMap (builderLine typeName accessor.builder) := by
      rw [chars, List.flatMap_map, List.flatMap_map]
      refine List.flatMap_congr fun member _ => ?_
      simp [toList_line_append, builderLine]
    simp [hmembers, hlines, toList_line_append, Function.comp_def]

theorem not_builder_prefix_end (names : List String) (after : List Char) :
    ¬['\t', '\t', 'S'] <+: accessorEnd names ++ after := by
  have hstart : ¬['\t', '\t', 'S'].take "\t\treturn hana::make_tuple(".toList.length <+:
      "\t\treturn hana::make_tuple(".toList := by decide
  unfold accessorEnd
  generalize (", ".intercalate (names.map (· ++ "_info()"))).toList ++ _ = tuple
  rw [List.append_assoc]
  exact not_prefix_append hstart _

-- What follows must not start as the function does that may have been left out.
theorem accessorText_inj {typeName function builder : String}
    (hbuilder : builder.toList.head? = some 'S') {names others : List String} {rest more : List Char}
    (hnames : ∀ name ∈ names, ',' ∉ name.toList) (hothers : ∀ name ∈ others, ',' ∉ name.toList)
    (hrest : ¬accessorStart function <+: rest) (hmore : ¬accessorStart function <+: more)
    (h : accessorText typeName function builder names ++ rest =
      accessorText typeName function builder others ++ more) :
    names = others ∧ rest = more := by
  unfold accessorText at h
  by_cases hempty : names = []
  · by_cases hnone : others = []
    · rw [hempty, hnone] at h ⊢
      exact ⟨rfl, h⟩
    · rw [if_pos (by simp [hempty]), if_neg (by simp [hnone]), List.nil_append,
        List.append_assoc] at h
      exact absurd (h ▸ List.prefix_append _ _) hrest
  · by_cases hnone : others = []
    · rw [if_neg (by simp [hempty]), if_pos (by simp [hnone]), List.nil_append,
        List.append_assoc] at h
      exact absurd (h ▸ List.prefix_append _ _) hmore
    · rw [if_neg (by simp [hempty]), if_neg (by simp [hnone])] at h
      simp only [List.append_assoc, List.append_cancel_left_eq] at h
      obtain ⟨letters, hletters⟩ := List.head?_eq_some_iff.mp hbuilder
      have hmark (name : String) : ['\t', '\t', 'S'] <+: builderLine typeName builder name := by
        rw [builderLine, hletters]
        exact ⟨_, rfl⟩
      obtain ⟨hsame, hafter⟩ := flatMap_inj (selfDelimiting_builderLine typeName builder) hmark
        hnames hothers (not_builder_prefix_end names rest) (not_builder_prefix_end others more) h
      rw [hsame] at hafter
      exact ⟨hsame, List.append_cancel_left hafter⟩

end Accessors

end Cpp

section Names

-- An identifier as headers have them.
def isName (name : String) : Bool :=
  match name.toList with
  | [] => false
  | first :: more =>
    Header.Lexical.isLetter first && more.all fun c => Header.Lexical.isLetter c || c.isDigit

-- Identifiers joined by `::`.
def IsQualifiedName (name : String) : Prop :=
  ∃ parts : List String, (∀ part ∈ parts, isName part = true) ∧ name = "::".intercalate parts

theorem notMem_of_isName {name : String} (h : isName name = true) {c : Char}
    (hc : (Header.Lexical.isLetter c || c.isDigit) = false) : c ∉ name.toList := by
  unfold isName at h
  split at h
  · cases h
  · next first more htext =>
    rw [Bool.and_eq_true] at h
    rw [htext, List.mem_cons, not_or]
    constructor
    · rintro rfl
      simp [h.1] at hc
    · intro hmem
      rw [List.all_eq_true.mp h.2 c hmem] at hc
      cases hc

theorem IsQualifiedName.notMem {name : String} (h : IsQualifiedName name) {c : Char}
    (hc : (Header.Lexical.isLetter c || c.isDigit) = false) (hcolon : c ≠ ':') :
    c ∉ name.toList := by
  obtain ⟨parts, hparts, rfl⟩ := h
  rw [String.toList_intercalate]
  induction parts with
  | nil => simp
  | cons part parts ih =>
      have hpart := notMem_of_isName (hparts part List.mem_cons_self) hc
      have hothers := ih fun part hmem => hparts part (List.mem_cons_of_mem _ hmem)
      cases parts with
      | nil => simpa using hpart
      | cons other parts => simp_all [List.intercalate]

end Names

structure TypeDescriptor.WellNamed (type : TypeDescriptor) : Prop where
  name : IsQualifiedName type.qualifiedName
  -- every member stands in the list for its kind
  members : ∀ kind, ∀ member ∈ type.members kind, isName member.name = true ∧ member.kind = kind

structure Artifact.WellNamed (artifact : Artifact) : Prop where
  source : '\n' ∉ artifact.source.toList
  hash : ∀ hash ∈ artifact.sourceHash, ∀ c ∈ hash.toList, Metadata.Literal.isHex c = true
  types : ∀ type ∈ artifact.types, type.WellNamed

namespace Cpp

section Types

-- The end of a type.
def typeEnd : List Char := "\x7d;\n".toList

-- The template that a type specializes.
def templateName : Bool → List Char
  | true => 'E' :: "numInfo<".toList
  | false => 'C' :: "lassInfo<".toList

-- The function that gives the name of a type.
def nameGetter (isEnum : Bool) (name : String) : List Char :=
  "\n\x7b\n\tinline static constexpr const char* ".toList ++
    ((if isEnum then "GetEnumName" else "GetClassName").toList ++
      ("()\n\t\x7b\n\t\treturn ".toList ++ ((quote name).toList ++ ";\n\t\x7d\n".toList)))

-- What stands in front of the metadata of a type.
def typeStart (isEnum : Bool) (name : String) : List Char :=
  "\ntemplate<>\nstruct ".toList ++ (templateName isEnum ++
    (name.toList ++ '>' :: nameGetter isEnum name))

def typeText (options : CppOptions) (type : TypeDescriptor) : List Char :=
  typeStart type.isEnum type.qualifiedName ++ (chars (metadataArray "meta" type.pieces) ++
    (chars ((accessors options type.body).flatMap memberArrays) ++
      (chars ((accessors options type.body).flatMap (accessorLines type.qualifiedName)) ++
        typeEnd)))

theorem chars_typeLines (options : CppOptions) (type : TypeDescriptor) :
    chars (line 0 "" :: typeLines options type) = typeText options type := by
  unfold typeText typeStart nameGetter typeLines typeEnd
  cases type.isEnum <;> simp [toList_line_append, List.replicate, templateName]

theorem templateName_inj {isEnum others : Bool} {rest more : List Char}
    (h : templateName isEnum ++ rest = templateName others ++ more) : isEnum = others := by
  cases isEnum with
  | true =>
      cases others with
      | true => rfl
      | false => exact absurd (List.cons.inj h).1 (by decide)
  | false =>
      cases others with
      | true => exact absurd (List.cons.inj h).1 (by decide)
      | false => rfl

theorem typeStart_inj {isEnum others : Bool} {one other : String} {rest more : List Char}
    (hone : '>' ∉ one.toList) (hother : '>' ∉ other.toList)
    (h : typeStart isEnum one ++ rest = typeStart others other ++ more) :
    (isEnum = others ∧ one = other) ∧ rest = more := by
  have hstart (isEnum : Bool) (name : String) (after : List Char) :
      typeStart isEnum name ++ after = "\ntemplate<>\nstruct ".toList ++ (templateName isEnum ++
        (name.toList ++ '>' :: (nameGetter isEnum name ++ after))) := by
    unfold typeStart
    generalize templateName isEnum = template
    generalize nameGetter isEnum name = getter
    simp
  have hnames := h
  rw [hstart, hstart] at hnames
  obtain rfl := templateName_inj (List.append_cancel_left hnames)
  have hname := (append_stop_inj hone hother
    (List.append_cancel_left (List.append_cancel_left hnames))).1
  obtain rfl := String.toList_inj.mp hname
  exact ⟨⟨rfl, rfl⟩, List.append_cancel_left h⟩

end Types

section Bodies

-- An array with the empty line in front of it.
def arrayText (array : String × List Piece) : List Char :=
  chars (line 0 "" :: metadataArray array.1 array.2)

theorem selfDelimiting_arrayText :
    SelfDelimiting (fun array => ' ' ∉ array.1.toList) arrayText := by
  rintro ⟨one, pieces⟩ ⟨other, others⟩ rest more hone hother h
  simp only [arrayText, chars_cons, List.append_assoc] at h
  obtain ⟨⟨rfl, rfl⟩, hrest⟩ := metadataArray_inj hone hother (List.append_cancel_left h)
  exact ⟨rfl, hrest⟩

theorem chars_memberArrays (accessors : List Accessor) :
    chars (accessors.flatMap memberArrays) =
      (accessors.flatMap Accessor.arrays).flatMap arrayText := by
  rw [chars_flatMap, List.flatMap_assoc]
  refine List.flatMap_congr fun accessor _ => ?_
  rw [memberArrays_eq, chars_flatMap]
  rfl

-- The functions of a type, from one of them on, do not start with a mark that none of them has.
theorem not_prefix_accessors {mark : List Char} (hmark : mark.head? = some '\n')
    {accessors : List Accessor}
    (hothers : ∀ accessor ∈ accessors, ∀ after, ¬mark <+: accessorStart accessor.function ++ after)
    (typeName : String) (rest : List Char) :
    ¬mark <+: chars (accessors.flatMap (accessorLines typeName)) ++ (typeEnd ++ rest) := by
  induction accessors with
  | nil =>
      obtain ⟨more, rfl⟩ := List.head?_eq_some_iff.mp hmark
      rintro ⟨after, hafter⟩
      exact absurd (List.cons.inj hafter).1 (by decide)
  | cons accessor accessors ih =>
      have hmore := ih fun accessor hmem => hothers accessor (List.mem_cons_of_mem _ hmem)
      rw [List.flatMap_cons, chars_append, chars_accessorLines, List.append_assoc]
      unfold accessorText
      split
      · exact hmore
      · rw [List.append_assoc]
        exact hothers accessor List.mem_cons_self _

-- How every array of a member starts.
def arrayMark : List Char := "\n\tinline static constexpr s".toList

theorem isPrefix_arrayMark (array : String × List Piece) : arrayMark <+: arrayText array := by
  rw [arrayText, chars_cons, chars_metadataArray]
  exact ⟨_, rfl⟩

theorem not_isPrefix_arrayMark (typeName : String) (accessors : List Accessor) (rest : List Char) :
    ¬arrayMark <+: chars (accessors.flatMap (accessorLines typeName)) ++ (typeEnd ++ rest) := by
  refine not_prefix_accessors rfl (fun accessor _ after => ?_) typeName rest
  have hstart : ¬arrayMark.take "\n\tinline static constexpr auto ".toList.length <+:
      "\n\tinline static constexpr auto ".toList := by decide
  unfold accessorStart
  generalize accessor.function.toList ++ _ = call
  rw [List.append_assoc]
  exact not_prefix_append hstart _

-- The function `function` starts differently from all of the others.
def Distinguished (function : String) (others : List String) : Prop :=
  ∀ other ∈ others,
    ¬(accessorStart function).take (accessorStart other).length <+: accessorStart other

instance (function : String) (others : List String) : Decidable (Distinguished function others) :=
  List.decidableBAll ..

-- The first function of a type, whether it is there or left out, tells the names that it lists.
theorem firstAccessor_inj {typeName function builder : String}
    {members others : List MemberDescriptor} {accessors more : List Accessor} {rest after : List Char}
    (hbuilder : builder.toList.head? = some 'S')
    (hmembers : ∀ member ∈ members, isName member.name = true)
    (hothers : ∀ member ∈ others, isName member.name = true)
    (haccessors : Distinguished function (accessors.map (·.function)))
    (hmore : Distinguished function (more.map (·.function)))
    (h : chars ((⟨function, builder, members⟩ :: accessors).flatMap (accessorLines typeName)) ++
        (typeEnd ++ rest) =
      chars ((⟨function, builder, others⟩ :: more).flatMap (accessorLines typeName)) ++
        (typeEnd ++ after)) :
    members.map (·.name) = others.map (·.name) ∧
      chars (accessors.flatMap (accessorLines typeName)) ++ (typeEnd ++ rest) =
        chars (more.flatMap (accessorLines typeName)) ++ (typeEnd ++ after) := by
  have hnames {members : List MemberDescriptor}
      (h : ∀ member ∈ members, isName member.name = true) :
      ∀ name ∈ members.map (·.name), ',' ∉ name.toList := by
    intro name hmem
    obtain ⟨member, hmember, rfl⟩ := List.mem_map.mp hmem
    exact notMem_of_isName (h member hmember) (by decide)
  have hstart {accessors : List Accessor}
      (h : Distinguished function (accessors.map (·.function))) (rest : List Char) :
      ¬accessorStart function <+:
        chars (accessors.flatMap (accessorLines typeName)) ++ (typeEnd ++ rest) := by
    refine not_prefix_accessors rfl (fun accessor hmem after => ?_) typeName rest
    exact not_prefix_append (h accessor.function (List.mem_map_of_mem hmem)) after
  rw [List.flatMap_cons, List.flatMap_cons, chars_append, chars_append, chars_accessorLines,
    chars_accessorLines, List.append_assoc, List.append_assoc] at h
  exact accessorText_inj hbuilder (hnames hmembers) (hnames hothers) (hstart haccessors rest)
    (hstart hmore after) h

-- Members that are all of one kind are told by their arrays.
theorem members_inj {kind : MemberKind} {members others : List MemberDescriptor}
    (hmembers : ∀ member ∈ members, member.kind = kind)
    (hothers : ∀ member ∈ others, member.kind = kind)
    (h : members.map (fun member => (member.name ++ "_meta", member.pieces)) =
      others.map (fun member => (member.name ++ "_meta", member.pieces))) : members = others := by
  induction members generalizing others with
  | nil => exact (List.map_eq_nil_iff.mp h.symm).symm
  | cons member members ih =>
      cases others with
      | nil => cases h
      | cons other others =>
          rw [List.forall_mem_cons] at hmembers hothers
          obtain ⟨harray, hmore⟩ := List.cons.inj h
          have hname := (String.append_left_inj "_meta").mp (Prod.mk.inj harray).1
          rw [ih hmembers.2 hothers.2 hmore]
          congr 1
          cases member
          cases other
          simp_all

-- The members of a type are told by its arrays, which are those of all its members in a row, and
-- its functions, which tell the names of its members of each kind.
theorem body_inj {options : CppOptions} {one other : TypeDescriptor} {rest more : List Char}
    (hone : one.WellNamed) (hother : other.WellNamed) (hkind : one.isEnum = other.isEnum)
    (typeName : String)
    (harrays : (accessors options one.body).flatMap Accessor.arrays =
      (accessors options other.body).flatMap Accessor.arrays)
    (h : chars ((accessors options one.body).flatMap (accessorLines typeName)) ++
        (typeEnd ++ rest) =
      chars ((accessors options other.body).flatMap (accessorLines typeName)) ++
        (typeEnd ++ more)) : one.body = other.body ∧ rest = more := by
  obtain ⟨name, pieces, body⟩ := one
  obtain ⟨otherName, otherPieces, otherBody⟩ := other
  have hkinds {type : TypeDescriptor} (htype : type.WellNamed) (kind : MemberKind) :
      ∀ member ∈ type.members kind, member.kind = kind :=
    fun member hmem => (htype.members kind member hmem).2
  have hnames {type : TypeDescriptor} (htype : type.WellNamed) (kind : MemberKind) :
      ∀ member ∈ type.members kind, isName member.name = true :=
    fun member hmem => (htype.members kind member hmem).1
  cases body with
  | enumBody enumerators =>
      cases otherBody with
      | classBody fields statics methods => cases hkind
      | enumBody others =>
          simp only [accessors, List.flatMap_cons, List.flatMap_nil, List.append_nil] at harrays
          obtain rfl : enumerators = others :=
            members_inj (hkinds hone .enumerator) (hkinds hother .enumerator) harrays
          exact ⟨rfl, List.append_cancel_left (List.append_cancel_left h)⟩
  | classBody fields statics methods =>
      cases otherBody with
      | enumBody others => cases hkind
      | classBody otherFields otherStatics otherMethods =>
          have hfirst : Distinguished "all_fields" ["all_static_fields", "all_methods"] := by decide
          have hsecond : Distinguished "all_static_fields" ["all_methods"] := by decide
          have hthird : Distinguished "all_methods" [] := by decide
          -- the names give the lengths at which the row of arrays is cut
          obtain ⟨hfields, hbehindFields⟩ := firstAccessor_inj (by decide) (hnames hone .field)
            (hnames hother .field) hfirst hfirst h
          obtain ⟨hstatics, hbehindStatics⟩ := firstAccessor_inj (by decide)
            (hnames hone .staticField) (hnames hother .staticField) hsecond hsecond hbehindFields
          obtain ⟨hmethods, hbehindMethods⟩ := firstAccessor_inj (by decide) (hnames hone .method)
            (hnames hother .method) hthird hthird hbehindStatics
          have hlength {members others : List MemberDescriptor}
              (h : members.map (·.name) = others.map (·.name)) :
              (members.map fun member => (member.name ++ "_meta", member.pieces)).length =
                (others.map fun member => (member.name ++ "_meta", member.pieces)).length := by
            simpa using congrArg List.length h
          simp only [accessors, List.flatMap_cons, List.flatMap_nil, List.append_nil] at harrays
          obtain ⟨hfieldArrays, harrays⟩ := List.append_inj harrays (hlength hfields)
          obtain ⟨hstaticArrays, hmethodArrays⟩ := List.append_inj harrays (hlength hstatics)
          obtain rfl : fields = otherFields :=
            members_inj (hkinds hone .field) (hkinds hother .field) hfieldArrays
          obtain rfl : statics = otherStatics :=
            members_inj (hkinds hone .staticField) (hkinds hother .staticField) hstaticArrays
          obtain rfl : methods = otherMethods :=
            members_inj (hkinds hone .method) (hkinds hother .method) hmethodArrays
          exact ⟨rfl, List.append_cancel_left hbehindMethods⟩

theorem accessor_names {type : TypeDescriptor} (htype : type.WellNamed) (options : CppOptions) :
    ∀ accessor ∈ accessors options type.body, ∀ member ∈ accessor.members,
      isName member.name = true := by
  obtain ⟨name, pieces, body⟩ := type
  have hnames (kind : MemberKind) :
      ∀ member ∈ (TypeDescriptor.mk name pieces body).members kind, isName member.name = true :=
    fun member hmem => (htype.members kind member hmem).1
  cases body with
  | enumBody enumerators =>
      simp only [accessors, List.forall_mem_singleton]
      exact hnames .enumerator
  | classBody fields statics methods =>
      simp only [accessors, List.forall_mem_cons]
      exact ⟨hnames .field, hnames .staticField, hnames .method, List.forall_mem_nil _⟩

theorem selfDelimiting_typeText (options : CppOptions) :
    SelfDelimiting TypeDescriptor.WellNamed (typeText options) := by
  intro one other rest more hone hother h
  simp only [typeText, List.append_assoc] at h
  obtain ⟨⟨hkind, hname⟩, hafter⟩ := typeStart_inj (hone.name.notMem (by decide) (by decide))
    (hother.name.notMem (by decide) (by decide)) h
  obtain ⟨⟨-, hpieces⟩, hafter⟩ := metadataArray_inj (by decide) (by decide) hafter
  have hspace {type : TypeDescriptor} (htype : type.WellNamed) :
      ∀ array ∈ (accessors options type.body).flatMap Accessor.arrays, ' ' ∉ array.1.toList := by
    intro array hmem
    obtain ⟨accessor, haccessor, harray⟩ := List.mem_flatMap.mp hmem
    obtain ⟨member, hmember, rfl⟩ := List.mem_map.mp harray
    have hname : ' ' ∉ member.name.toList :=
      notMem_of_isName (accessor_names htype options accessor haccessor member hmember) (by decide)
    simpa using hname
  rw [chars_memberArrays, chars_memberArrays, hname] at hafter
  obtain ⟨harrays, hafter⟩ := flatMap_inj selfDelimiting_arrayText isPrefix_arrayMark (hspace hone)
    (hspace hother) (not_isPrefix_arrayMark _ _ _) (not_isPrefix_arrayMark _ _ _) hafter
  obtain ⟨hbody, hrest⟩ := body_inj hone hother hkind other.qualifiedName harrays hafter
  refine ⟨?_, hrest⟩
  cases one
  cases other
  simp_all

end Bodies

section Header

-- The lines in front of the types, behind those that name the source and its digest.
def preamble (options : CppOptions) : List Char :=
  chars [line 0 "#pragma once", line 0 ("#include <" ++ options.ruleHeader ++ ">"), line 0 "",
    line 0 ("using namespace " ++ options.usedNamespace ++ ";")]

theorem toList_renderCpp_eq (options : CppOptions) (artifact : Artifact) :
    (artifact.renderCpp options).toList =
      sourceLine artifact ++ '\n' :: (chars (hashLines artifact.sourceHash) ++
        (preamble options ++ artifact.types.flatMap (typeText options))) := by
  have hsource : (line 0 ("// Generated by reflgen from " ++ artifact.source ++
      ". Do not edit.")).toList = sourceLine artifact ++ ['\n'] := toList_line_between _ _ _
  have htypes : chars (artifact.types.flatMap fun type => line 0 "" :: typeLines options type) =
      artifact.types.flatMap (typeText options) := by
    rw [chars_flatMap]
    exact List.flatMap_congr fun type _ => chars_typeLines options type
  rw [Artifact.renderCpp, toList_concat]
  change chars (artifactLines options artifact) = _
  simp only [artifactLines, chars_append, chars_cons, chars_nil, hsource, htypes, preamble]
  simp

theorem hashLines_inj {options : CppOptions} {one other : Option String} {rest more : List Char}
    (hone : ∀ hash ∈ one, '\n' ∉ hash.toList) (hother : ∀ hash ∈ other, '\n' ∉ hash.toList)
    (h : chars (hashLines one) ++ (preamble options ++ rest) =
      chars (hashLines other) ++ (preamble options ++ more)) : one = other ∧ rest = more := by
  have hline (hash : String) : chars (hashLines (some hash)) =
      hashMarker.toList ++ hash.toList ++ ['\n'] := by
    simp [hashLines, toList_line]
  cases one with
  | none =>
      cases other with
      | none => exact ⟨rfl, List.append_cancel_left (List.append_cancel_left h)⟩
      | some hash =>
          rw [hline] at h
          exact absurd (List.cons.inj h).1 (by decide)
  | some hash =>
      cases other with
      | none =>
          rw [hline] at h
          exact absurd (List.cons.inj h).1 (by decide)
      | some otherHash =>
          rw [hline, hline, List.append_assoc, List.append_assoc, List.append_assoc,
            List.append_assoc] at h
          obtain ⟨hhash, hrest⟩ := append_stop_inj (hone hash rfl) (hother otherHash rfl)
            (List.append_cancel_left h)
          exact ⟨by rw [String.toList_inj.mp hhash], List.append_cancel_left hrest⟩

theorem sourceLine_inj {one other : Artifact} (h : sourceLine one = sourceLine other) :
    one.source = other.source :=
  String.toList_inj.mp (List.append_cancel_right (List.append_cancel_left h))

theorem notMem_sourceLine {artifact : Artifact} (h : artifact.WellNamed) :
    '\n' ∉ sourceLine artifact := by
  have hmark : '\n' ∉ sourceMark := by decide
  have hend : '\n' ∉ sourceEnd := by decide
  simp only [sourceLine, List.mem_append, not_or]
  exact ⟨hmark, h.source, hend⟩

theorem notMem_hash {artifact : Artifact} (h : artifact.WellNamed) :
    ∀ hash ∈ artifact.sourceHash, '\n' ∉ hash.toList := by
  intro hash hhash hmem
  exact absurd (h.hash hash hhash '\n' hmem) (by decide)

end Header

end Cpp

-- Two artifacts that are rendered as the same header are the same, with the order of the types and
-- members and with all keys and values of their metadata.
theorem Artifact.renderCpp_injective (options : CppOptions) {one other : Artifact}
    (hone : one.WellNamed) (hother : other.WellNamed)
    (h : one.renderCpp options = other.renderCpp options) : one = other := by
  have htext := congrArg String.toList h
  rw [Cpp.toList_renderCpp_eq, Cpp.toList_renderCpp_eq] at htext
  obtain ⟨hsource, hafter⟩ := append_stop_inj (Cpp.notMem_sourceLine hone)
    (Cpp.notMem_sourceLine hother) htext
  obtain ⟨hhash, htypes⟩ := Cpp.hashLines_inj (Cpp.notMem_hash hone) (Cpp.notMem_hash hother) hafter
  have hmark (type : TypeDescriptor) : ['\n'] <+: Cpp.typeText options type := ⟨_, rfl⟩
  have hend : ¬['\n'] <+: [] := by simp
  rw [← List.append_nil (one.types.flatMap _), ← List.append_nil (other.types.flatMap _)] at htypes
  have hsame := (flatMap_inj (Cpp.selfDelimiting_typeText options) hmark hone.types hother.types
    hend hend htypes).1
  have hname := Cpp.sourceLine_inj hsource
  cases one
  cases other
  simp_all

-- Metadata that looks like the end of an array.
def imitating : Artifact :=
  ⟨"shape.hpp", none, [⟨"geo::Shape", [Piece.marker "refl", ⟨"doc", "\"\x7d\n\t\x7d\x7d;\n"⟩],
    .classBody [⟨"width", .field, []⟩] [] [⟨"area", .method, [⟨"unit", "m, m"⟩]⟩]⟩,
    ⟨"Mode", [], .enumBody [⟨"On", .enumerator, []⟩]⟩]⟩

theorem Artifact.renderCpp_injective_imitating :
    (imitating.withSourceHash "0a").WellNamed ∧
      Artifact.WellNamed ⟨"shape.hpp", some "0a", imitating.types⟩ ∧
      (imitating.withSourceHash "0a").renderCpp .default =
        Artifact.renderCpp .default ⟨"shape.hpp", some "0a", imitating.types⟩ ∧
      imitating.withSourceHash "0a" = ⟨"shape.hpp", some "0a", imitating.types⟩ := by
  have hmembers : ∀ type ∈ imitating.types, ∀ kind, ∀ member ∈ type.members kind,
      isName member.name = true ∧ member.kind = kind := by
    intro type hmem kind
    simp only [imitating, List.mem_cons, List.not_mem_nil, or_false] at hmem
    rcases hmem with rfl | rfl <;> cases kind <;> decide
  have hnames : ∀ type ∈ imitating.types, IsQualifiedName type.qualifiedName := by
    intro type hmem
    simp only [imitating, List.mem_cons, List.not_mem_nil, or_false] at hmem
    rcases hmem with rfl | rfl
    · exact ⟨["geo", "Shape"], by decide, rfl⟩
    · exact ⟨["Mode"], by decide, rfl⟩
  have hhash : ∀ hash ∈ (imitating.withSourceHash "0a").sourceHash, ∀ c ∈ hash.toList,
      Metadata.Literal.isHex c = true := by
    intro hash hmem
    obtain rfl : "0a" = hash := Option.some.inj hmem
    exact List.all_eq_true.mp (by decide)
  have hsample : (imitating.withSourceHash "0a").WellNamed :=
    ⟨by decide, hhash, fun type hmem => ⟨hnames type hmem, hmembers type hmem⟩⟩
  exact ⟨hsample, hsample, rfl, renderCpp_injective .default hsample hsample rfl⟩

end Reflection
