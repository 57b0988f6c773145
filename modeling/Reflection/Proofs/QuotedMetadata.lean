import Mathlib
import Reflection.Proofs.Header.AttributedStruct
import Reflection.Proofs.Header.Lexemes
import Reflection.Proofs.Metadata.QuotedItems
import Reflection.Selection

namespace Reflection

open Metadata (Piece IsIdentifier quotedItem quotedItems markedText)
open Header Header.Lexical

theorem lexeme_key {first : Char} {more : List Char}
    (hfirst : first.isAlpha = true ∨ first = '_')
    (hmore : ∀ c ∈ more, Metadata.Lexical.isWordPart c = true) (rest : List Char) :
    lexeme first (more ++ '(' :: rest) = ⟨some (wordKind (first :: more)), more.length⟩ := by
  have hletter : isLetter first = true := by
    obtain h | rfl := hfirst
    · simp [isLetter, h]
    · decide
  have htake : (more ++ '(' :: rest).takeWhile (fun d => isLetter d || d.isDigit) = more := by
    rw [takeWhile_append_stop (by decide), List.takeWhile_eq_self_iff]
    intro c hc
    have hword := hmore c hc
    simp only [Metadata.Lexical.isWordPart, Char.isAlphanum, Bool.or_eq_true, decide_eq_true_eq]
      at hword
    simp only [isLetter, Bool.or_eq_true, decide_eq_true_eq]
    tauto
  rw [lexeme_letter hletter, htake]

-- In front of `rest`, the text is cut into tokens none of which closes a block.
def StaysInside (lead text rest : List Char) : Prop :=
  ∀ start, ∃ tokens next, scanFrom lexeme .eof start lead (text ++ rest) =
    (scanFrom lexeme .eof next [] rest).behind tokens ∧ NoBracket tokens ∧
      tokens.flatMap Token.spelled = lead ++ text

theorem StaysInside.token {c : Char} {more rest : List Char} {kind : Header.TokenKind}
    (h : lexeme c (more ++ rest) = ⟨some kind, more.length⟩) (hkind : kind ≠ .rBracket)
    (lead : List Char) : StaysInside lead (c :: more) rest := by
  intro start
  refine ⟨[⟨kind, start, lead, c :: more⟩], _, scanFrom_whole h start lead, ?_, ?_⟩
  · intro token hmem
    rw [List.mem_singleton.mp hmem]
    exact hkind
  · simp [Token.spelled]

theorem StaysInside.append {lead first second rest : List Char}
    (hfirst : StaysInside lead first (second ++ rest)) (hsecond : StaysInside [] second rest) :
    StaysInside lead (first ++ second) rest := by
  intro start
  obtain ⟨tokens, middle, hscan, hkinds, hspelled⟩ := hfirst start
  obtain ⟨more, next, hmore, hothers, htext⟩ := hsecond middle
  refine ⟨tokens ++ more, next, ?_, ?_, ?_⟩
  · rw [List.append_assoc, hscan, hmore]
    simp [Tokens.behind]
  · intro token hmem
    obtain hmem | hmem := List.mem_append.mp hmem
    · exact hkinds token hmem
    · exact hothers token hmem
  · rw [List.flatMap_append, hspelled, htext, List.append_assoc, List.nil_append]

theorem StaysInside.blank {c : Char} {more rest : List Char} (hblank : isBlank c = false)
    (h : StaysInside [' '] (c :: more) rest) : StaysInside [] (' ' :: c :: more) rest := by
  intro start
  have hspace : lexeme ' ' (c :: (more ++ rest)) = ⟨none, 0⟩ := by
    rw [lexeme_blank (by decide), List.takeWhile_cons_of_neg (by simp [hblank])]
    rfl
  obtain ⟨tokens, next, hscan, hkinds, hspelled⟩ := h (start + Text.byteLength [' '])
  refine ⟨tokens, next, ?_, hkinds, hspelled⟩
  rw [← hscan]
  exact scanFrom_skip hspace start []

theorem staysInside_quotedItem {piece : Piece} (hkey : IsIdentifier piece.key.toList)
    (lead rest : List Char) : StaysInside lead (quotedItem piece) rest := by
  obtain ⟨first, more, hname, hfirst, hmore⟩ := hkey
  have hopening (rest : List Char) : lexeme '(' ([] ++ rest) = ⟨some .lParen, 0⟩ := rfl
  have hclosing (rest : List Char) : lexeme ')' ([] ++ rest) = ⟨some .rParen, 0⟩ := rfl
  have hliteral := Metadata.Literal.header_lexeme_inner piece.value.toList (')' :: rest)
  have hitem : quotedItem piece = (first :: more) ++ (['('] ++
      (Metadata.Literal.encode piece.value.toList ++ [')'])) := by
    rw [← hname]
    simp [quotedItem, Cpp.quote, Metadata.Literal.quote]
  rw [hitem]
  have hword : wordKind (first :: more) ≠ .rBracket := wordKind_ne (by decide) (by decide) _
  refine .append (.token (lexeme_key hfirst hmore _) hword lead) ?_
  refine .append ?_ (.append ?_ ?_)
  · exact .token (hopening _) (by decide) []
  · exact .token hliteral (by decide) []
  · exact .token (hclosing _) (by decide) []

theorem staysInside_quotedItems {pieces : List Piece} (hne : pieces ≠ [])
    (hkeys : ∀ piece ∈ pieces, IsIdentifier piece.key.toList) (lead rest : List Char) :
    StaysInside lead (quotedItems pieces) rest := by
  induction pieces generalizing lead with
  | nil => exact absurd rfl hne
  | cons piece pieces ih =>
      have hkey := hkeys piece List.mem_cons_self
      cases pieces with
      | nil =>
          have hitems : quotedItems [piece] = quotedItem piece := by
            simp [quotedItems]
          rw [hitems]
          exact staysInside_quotedItem hkey lead rest
      | cons other pieces =>
          have hothers : ∀ piece ∈ other :: pieces, IsIdentifier piece.key.toList :=
            fun piece hmem => hkeys piece (List.mem_cons_of_mem _ hmem)
          obtain ⟨first, more, hcons, hfirst⟩ :=
            Metadata.quotedItems_eq_cons (hothers other List.mem_cons_self) pieces
          have hcomma (rest : List Char) : lexeme ',' ([] ++ rest) = ⟨some .comma, 0⟩ := rfl
          have hmore := ih (by simp) hothers [' ']
          rw [Metadata.quotedItems_cons_cons]
          rw [hcons] at hmore ⊢
          refine .append (staysInside_quotedItem hkey lead _) ?_
          exact .append (.token (hcomma _) (by decide) [])
            (.blank (Metadata.isBlank_of_word hfirst) hmore)

theorem staysInside_markedText {pieces : List Piece} (hne : pieces ≠ [])
    (hkeys : ∀ piece ∈ pieces, IsIdentifier piece.key.toList) (rest : List Char) :
    StaysInside [] (markedText pieces) rest := by
  cases pieces with
  | nil => exact absurd rfl hne
  | cons piece pieces =>
      obtain ⟨first, more, hcons, hfirst⟩ :=
        Metadata.quotedItems_eq_cons (hkeys piece List.mem_cons_self) pieces
      have hitems := staysInside_quotedItems hne hkeys [' '] rest
      have htext : markedText (piece :: pieces) =
          "refl".toList ++ ([','] ++ (' ' :: first :: more)) := by
        delta markedText
        rw [hcons]
        rfl
      rw [hcons] at hitems
      rw [htext]
      have hrefl (rest : List Char) : lexeme 'r' ("efl".toList ++ ',' :: rest) =
          ⟨some .ident, "efl".toList.length⟩ := by cbv
      have hcomma (rest : List Char) : lexeme ',' ([] ++ rest) = ⟨some .comma, 0⟩ := rfl
      refine .append (.token (hrefl _) (by decide) []) ?_
      exact .append (.token (hcomma _) (by decide) [])
        (.blank (Metadata.isBlank_of_word hfirst) hitems)

def quotedStart : List Char := "struct [[".toList

def quotedEnd : List Char := "]] W \x7b\x7d;".toList

-- The header `struct [[refl, ...]] W {};` with these keys and values.
def quotedHeader (pieces : List Piece) : List Char :=
  quotedStart ++ (markedText pieces ++ quotedEnd)

def quotedBrace (start : Nat) : Header.Token := ⟨.rBrace, start + 6, [], "\x7d".toList⟩

def quotedSemicolon (start : Nat) : Header.Token := ⟨.semicolon, start + 7, [], [';']⟩

theorem scan_quotedStart (rest : List Char) :
    (Header.scan (quotedStart ++ rest)).items =
      ⟨.structKw, 0, [], "struct".toList⟩ :: ⟨.attrOpen, 7, [' '], "[[".toList⟩ ::
        (scanFrom lexeme .eof 9 [] rest).items := by
  cbv

theorem scan_quotedEnd {inner : List Header.Token} (h : NoBracket inner) (start : Nat) :
    (scanFrom lexeme .eof start [] quotedEnd).items =
      (structAt start 'W' inner h).close.behind ((structAt start 'W' inner h).name ::
        (structAt start 'W' inner h).brace :: [quotedBrace start, quotedSemicolon start]) := by
  cbv

theorem scan_quotedHeader {pieces : List Piece} {inner : List Header.Token} {start : Nat}
    (hinner : NoBracket inner)
    (hscan : scanFrom lexeme .eof 9 [] (markedText pieces ++ quotedEnd) =
      (scanFrom lexeme .eof start [] quotedEnd).behind inner) :
    (Header.scan (quotedHeader pieces)).items = (structAt start 'W' inner hinner).keyword ::
      (structAt start 'W' inner hinner).front [quotedBrace start, quotedSemicolon start] := by
  rw [quotedHeader, scan_quotedStart, hscan, Tokens.behind]
  dsimp only
  rw [scan_quotedEnd hinner]
  rfl

-- A struct with an attribute block and no members is selected by the marker in the block.
theorem select_struct {head : ClassHead} {name : String} {block : AnnotationBlock}
    {pieces : List Piece} {span : Span} (hname : head.name = some name)
    (hdefinition : head.isDefinition = true) (htemplate : head.isTemplate = false)
    (hannotations : head.annotations = [block]) (hkind : block.kind = .attribute)
    (hpieces : block.pieces = .ok (Piece.marker defaultTypeMarker :: pieces)) :
    ((DeclarationTree.mk [.classDecl head []] span).select .default).outcome =
      .ok ⟨[⟨name, Piece.marker defaultTypeMarker :: pieces, .emptyClass⟩], []⟩ := by
  have hcandidates : candidatesOf "" [.classDecl head []] = [⟨name, .classType head []⟩] := by
    simp [candidatesOf, Entity.candidates, hname, hdefinition, htemplate, nestedCandidates, qualify]
  have hmarker : hasMarker head.annotations = true := by
    simp [hasMarker, hannotations, AnnotationBlock.isMarker, hkind]
  have hcollect : SelectionOptions.default.collect name head.annotations =
      (Piece.marker defaultTypeMarker :: pieces, []) := by
    simp [hannotations, SelectionOptions.collect, hpieces]
  have haccepts : SelectionOptions.default.accepts (Piece.marker defaultTypeMarker :: pieces) =
      true := by
    simp [SelectionOptions.accepts, SelectionOptions.default, Piece.marker]
  have hdescribe : Candidate.describe .default ⟨name, .classType head []⟩ =
      ⟨some ⟨name, Piece.marker defaultTypeMarker :: pieces, .emptyClass⟩, head.span, [], []⟩ := by
    simp [Candidate.describe, TypeDecl.annotations, hmarker, hcollect, haccepts,
      SelectionOptions.describeBody, SelectionOptions.describeMembers, TypeBody.emptyClass,
      TypeDecl.span]
  rw [DeclarationTree.select]
  dsimp only
  rw [hcandidates, List.map_cons, List.map_nil, hdescribe]
  rfl

-- Quoted values come back from attribute text, and, through a header, in the one type that it
-- declares, behind the marker.
theorem select_quotedHeader {pieces : List Piece} (hne : pieces ≠ [])
    (hkeys : ∀ piece ∈ pieces, IsIdentifier piece.key.toList) (mode : ErrorMode) :
    Metadata.ofAttributeText (quotedItems pieces) = .ok pieces ∧
      (∃ parsed, Header.parse mode (quotedHeader pieces) = .ok parsed ∧ parsed.recovered = [] ∧
        (parsed.tree.select .default).outcome =
          .ok ⟨[⟨"W", Piece.marker "refl" :: pieces, .emptyClass⟩], []⟩) ∧
      ∀ value, Metadata.Literal.unquote (Cpp.quote value) = value := by
  refine ⟨Metadata.ofAttributeText_quotedItems hne hkeys, ?_, fun value => ?_⟩
  · obtain ⟨inner, start, hscan, hinner, hspelled⟩ :=
      staysInside_markedText hne hkeys quotedEnd 9
    have hitems := scan_quotedHeader hinner hscan
    generalize hending : (Header.scan (quotedHeader pieces)).ending = ending
    have hbody := @classBody_rBrace mode ending (some "W") .publicAccess (quotedBrace start) rfl
      [quotedSemicolon start]
    obtain ⟨hout, hrecovered⟩ := @AttributedStruct.scope_front ending
      (structAt start 'W' inner hinner) mode [quotedBrace start, quotedSemicolon start]
      (quotedSemicolon start) [] rfl (congrArg (·.outcome) hbody) (congrArg (·.rest) hbody)
    rw [← hending, ← hitems] at hout hrecovered
    have hreports := congrArg (·.recovered) hbody
    have htext : inner.flatMap Token.spelled ++ [] = markedText pieces := by
      rw [hspelled, List.append_nil, List.nil_append]
    have hblock : (structAt start 'W' inner hinner).block.pieces =
        .ok (Piece.marker defaultTypeMarker :: pieces) := by
      simp only [AttributedStruct.block, blockOf, structAt, closingAt, AnnotationBlock.pieces,
        htext, String.toList_ofList]
      exact Metadata.ofAttributeText_markedText hne hkeys
    exact ⟨_, parse_of_ok hout, hrecovered.trans (hending ▸ hreports),
      select_struct rfl rfl rfl rfl rfl hblock⟩
  · rw [Metadata.Literal.unquote, Cpp.quote, Metadata.Literal.quote, String.toList_ofList,
      Metadata.Literal.decode_encode, String.ofList_toList]

theorem select_quotedHeader_brackets :
    (∀ piece ∈ [Piece.mk "doc" "a]]\"\\ b", ⟨"_x1", "\x012\n"⟩],
      IsIdentifier piece.key.toList) ∧
    ∃ parsed, Header.parse .fatal (quotedHeader [⟨"doc", "a]]\"\\ b"⟩, ⟨"_x1", "\x012\n"⟩]) =
        .ok parsed ∧ parsed.recovered = [] ∧
      (parsed.tree.select .default).outcome =
        .ok ⟨[⟨"W", [Piece.marker "refl", ⟨"doc", "a]]\"\\ b"⟩, ⟨"_x1", "\x012\n"⟩],
          .emptyClass⟩], []⟩ := by
  have hkeys : ∀ piece ∈ [Piece.mk "doc" "a]]\"\\ b", ⟨"_x1", "\x012\n"⟩],
      IsIdentifier piece.key.toList := by
    intro piece hmem
    simp only [List.mem_cons, List.not_mem_nil, or_false] at hmem
    obtain rfl | rfl := hmem
    · exact ⟨'d', ['o', 'c'], rfl, .inl rfl, List.all_eq_true.mp rfl⟩
    · exact ⟨'_', ['x', '1'], rfl, .inr rfl, List.all_eq_true.mp rfl⟩
  exact ⟨hkeys, (select_quotedHeader (by simp) hkeys .fatal).2.1⟩

end Reflection
