import Mathlib
import Reflection.Proofs.Header.AttributedStruct
import Reflection.Proofs.Header.Lexemes
import Reflection.Proofs.Header.PlainFields

namespace Reflection.Header

open Lexical

-- The characters of attribute text that the next lines are about: no end of a line or a block,
-- no start of a string or a comment, and no escape.
def IsPlain (text : List Char) : Prop := ∀ c ∈ text, c ∉ ['\n', ']', '"', '/', '\\']

-- Does the token, with what is skipped in front of it, end only with its line? So do
-- preprocessor lines and character literals that are not closed.
def RunsOn (token : Token) : Prop :=
  '#' ∈ token.lead ∨ (token.kind = .error ∧ token.text.head? = some '\'')

instance (token : Token) : Decidable (RunsOn token) := by unfold RunsOn; infer_instance

instance (text : List Char) : Decidable (IsPlain text) :=
  List.decidableBAll (fun c => c ∉ ['\n', ']', '"', '/', '\\']) text

theorem IsPlain.tail {c : Char} {text : List Char} (h : IsPlain (c :: text)) : IsPlain text :=
  fun d hd => h d (List.mem_cons_of_mem c hd)

theorem IsPlain.drop {text : List Char} (h : IsPlain text) (count : Nat) :
    IsPlain (text.drop count) := fun d hd => h d (List.mem_of_mem_drop hd)

theorem IsPlain.not_mem {text : List Char} (h : IsPlain text) {c : Char}
    (hc : c ∈ ['\n', ']', '"', '/', '\\']) : c ∉ text := fun hmem => h c hmem hc

-- Does nothing of the line close the character literal that starts with this character?
def OpensQuote (c : Char) (more : List Char) : Prop := c = '\'' ∧ '\'' ∉ more

theorem lexeme_quote {more : List Char} (h : IsPlain more) :
    lexeme '\'' more = if '\'' ∈ more then
        ⟨some .char, (more.takeWhile (· ≠ '\'')).length + 1⟩
      else ⟨some .error, (more.takeWhile (· ≠ '\'')).length⟩ := by
  have helements : literalElements '\'' false more = (more.takeWhile (· ≠ '\'')).length :=
    literalElements_plain (h.not_mem (by simp)) (h.not_mem (by simp))
  have hquote : lexeme '\'' more = literalLexeme '\'' false .char .error more := rfl
  rw [hquote, literalLexeme]
  simp only [helements, head?_drop_takeWhile_ne]

-- In plain text, nothing but these two is cut in another way if the block ends behind the text.
theorem lexeme_before_bracket {c : Char} {more : List Char} (h : IsPlain (c :: more))
    (hhash : c ≠ '#') (hquote : ¬OpensQuote c more) (after : List Char) :
    lexeme c (more ++ ']' :: after) = lexeme c more := by
  by_cases hc : c = '\''
  · subst hc
    have hmem : '\'' ∈ more := by
      by_contra hmem
      exact hquote ⟨rfl, hmem⟩
    have hclosed : (more.drop (literalElements '\'' false more)).head? = some '\'' := by
      rw [literalElements_plain (h.tail.not_mem (by simp)) (h.tail.not_mem (by simp))]
      exact (head?_drop_takeWhile_ne '\'' more).mpr hmem
    exact literalLexeme_append (by decide) hclosed _
  · have hplain := h c List.mem_cons_self
    exact lexeme_append (by simp_all) more after

-- If nothing in a plain text runs on, the text is cut in the same way inside a block.
theorem cutBefore_of_plain {text : List Char} (h : IsPlain text) {start : Nat} {lead : List Char}
    (hruns : ∀ token ∈ (scanFrom lexeme .eof start lead text).toList, ¬RunsOn token)
    (after : List Char) : CutBefore lexeme (']' :: after) text := by
  fun_induction scanFrom lexeme .eof start lead text with
  | case1 start lead => exact .nil
  | case2 start lead c rest _ text next hkind ih =>
      have hhash : c ≠ '#' := by
        rintro rfl
        obtain ⟨token, hmem, hlead⟩ := @exists_lead_scanFrom _ lexeme TokenKind.eof next
          (lead ++ text) (rest.drop (lexeme '#' rest).extra)
        exact hruns token hmem (.inl (hlead.subset (by simp [text])))
      have hquote : ¬OpensQuote c rest := by
        rintro ⟨rfl, hopen⟩
        change (lexeme '\'' rest).kind = none at hkind
        rw [lexeme_quote h.tail, if_neg hopen] at hkind
        cases hkind
      have hsame := lexeme_before_bracket h hhash hquote after
      exact .cons hsame (lexeme_extra_le c rest) (ih (h.tail.drop _) hruns)
  | case3 start lead c rest _ text next kind hkind ih =>
      have hhash : c ≠ '#' := by
        rintro rfl
        cases hkind
      have hquote : ¬OpensQuote c rest := by
        rintro ⟨rfl, hopen⟩
        have hkind : kind = .error := by
          change (lexeme '\'' rest).kind = some kind at hkind
          rw [lexeme_quote h.tail, if_neg hopen] at hkind
          exact (Option.some.inj hkind).symm
        exact hruns _ List.mem_cons_self (.inr ⟨hkind, rfl⟩)
      have hsame := lexeme_before_bracket h hhash hquote after
      exact .cons hsame (lexeme_extra_le c rest)
        (ih (h.tail.drop _) fun token hmem => hruns token (List.mem_cons_of_mem _ hmem))

theorem scanFrom_hash_line {line : List Char} (hescape : '\\' ∉ line) (hline : '\n' ∉ line)
    (start : Nat) (lead rest : List Char) :
    scanFrom lexeme .eof start lead ('#' :: (line ++ '\n' :: rest)) =
      scanFrom lexeme .eof (start + Text.byteLength ('#' :: line)) (lead ++ '#' :: line)
        ('\n' :: rest) := by
  have hhash : lexeme '#' (line ++ '\n' :: rest) = ⟨none, line.length⟩ := by
    rw [lexeme_hash, directiveLength_line hescape hline]
  rw [scanFrom_skip hhash, List.take_left, List.drop_left]

theorem scanFrom_quote_line {line : List Char} (hescape : '\\' ∉ line) (hline : '\n' ∉ line)
    (hquote : '\'' ∉ line) (start : Nat) (lead rest : List Char) :
    scanFrom lexeme .eof start lead ('\'' :: (line ++ '\n' :: rest)) =
      (scanFrom lexeme .eof (start + Text.byteLength ('\'' :: line)) [] ('\n' :: rest)).cons
        ⟨.error, start, lead, '\'' :: line⟩ :=
  scanFrom_whole (lexeme_quote_line hescape hline hquote rest) start lead

-- The rest of the header behind the text of the block: the end of its line, and the next line.
def memberClose : List Char := "]] int x;".toList

def nextLine : List Char := "int y; \x7d;".toList

def memberEnd : List Char := memberClose ++ '\n' :: nextLine

theorem noBracket_nextLine (start : Nat) (lead : List Char) :
    NoBracket (scanFrom lexeme .eof start lead ('\n' :: nextLine)).items := by
  have hkinds : (scanFrom lexeme .eof start lead ('\n' :: nextLine)).items.map (·.kind) =
      [.ident, .ident, .semicolon, .rBrace, .semicolon] := by cbv
  intro token hmem hkind
  have hmem := List.mem_map_of_mem (f := (·.kind)) hmem
  rw [hkinds, hkind] at hmem
  simp at hmem

theorem IsPlain.close {text : List Char} (h : IsPlain text) :
    '\\' ∉ text ++ memberClose ∧ '\n' ∉ text ++ memberClose := by
  have hescape := h.not_mem (c := '\\') (by simp)
  have hline := h.not_mem (c := '\n') (by simp)
  simp only [List.mem_append, not_or]
  exact ⟨⟨hescape, by decide⟩, ⟨hline, by decide⟩⟩

theorem lexeme_before_memberEnd {c : Char} {more : List Char} (h : IsPlain (c :: more))
    (hhash : c ≠ '#') (hquote : ¬OpensQuote c more) :
    lexeme c (more ++ memberEnd) = lexeme c more := lexeme_before_bracket h hhash hquote _

-- If something in a plain text runs on, it takes the end of the block with it.
theorem noBracket_of_runsOn {text : List Char} (h : IsPlain text) {start : Nat} {lead : List Char}
    (hlead : '#' ∉ lead)
    (hruns : ∃ token ∈ (scanFrom lexeme .eof start lead text).toList, RunsOn token) (other : Nat) :
    NoBracket (scanFrom lexeme .eof other lead (text ++ memberEnd)).items := by
  fun_induction scanFrom lexeme .eof start lead text generalizing other with
  | case1 start lead =>
      obtain ⟨token, hmem, hruns⟩ := hruns
      rw [List.mem_singleton.mp hmem] at hruns
      simp [RunsOn, hlead] at hruns
  | case2 start lead c rest _ text next hkind ih =>
      obtain ⟨hescape, hline⟩ := h.tail.close
      change (lexeme c rest).kind = none at hkind
      by_cases hhash : c = '#'
      · subst hhash
        rw [memberEnd, List.cons_append, ← List.append_assoc, scanFrom_hash_line hescape hline]
        exact noBracket_nextLine _ _
      have hquote : ¬OpensQuote c rest := by
        rintro ⟨rfl, hopen⟩
        rw [lexeme_quote h.tail, if_neg hopen] at hkind
        cases hkind
      have hskip : lexeme c (rest ++ memberEnd) = ⟨none, (lexeme c rest).extra⟩ := by
        rw [lexeme_before_memberEnd h hhash hquote, ← hkind]
      have hle := lexeme_extra_le c rest
      have hplain := h c List.mem_cons_self
      have hblank := not_mem_skipped (by simp_all) hkind
      rw [List.cons_append, scanFrom_skip hskip, List.take_append_of_le_length hle,
        List.drop_append_of_le_length hle]
      exact ih (h.tail.drop _) (List.not_mem_append hlead hblank) hruns _
  | case3 start lead c rest _ text next kind hkind ih =>
      obtain ⟨hescape, hline⟩ := h.tail.close
      change (lexeme c rest).kind = some kind at hkind
      have hhash : c ≠ '#' := by
        rintro rfl
        cases hkind
      by_cases hquote : OpensQuote c rest
      · obtain ⟨rfl, hopen⟩ := hquote
        have hopen : '\'' ∉ rest ++ memberClose := by simp [hopen]; decide
        rw [memberEnd, List.cons_append, ← List.append_assoc,
          scanFrom_quote_line hescape hline hopen]
        intro token hmem
        obtain rfl | hmem := List.mem_cons.mp hmem
        · simp
        · exact noBracket_nextLine _ _ token hmem
      have htoken : lexeme c (rest ++ memberEnd) = ⟨some kind, (lexeme c rest).extra⟩ := by
        rw [lexeme_before_memberEnd h hhash hquote, ← hkind]
      have hle := lexeme_extra_le c rest
      rw [List.cons_append, scanFrom_token htoken, List.take_append_of_le_length hle,
        List.drop_append_of_le_length hle]
      intro token hmem
      obtain rfl | hmem := List.mem_cons.mp hmem
      · have hbracket : c ≠ ']' := by
          rintro rfl
          exact h.not_mem (by simp) List.mem_cons_self
        have hne := lexeme_ne_rBracket hbracket rest
        rw [hkind] at hne
        exact fun hkind => hne (congrArg some hkind)
      · refine ih (h.tail.drop _) List.not_mem_nil ?_ _ token hmem
        obtain ⟨other, hother, hruns⟩ := hruns
        obtain rfl | hother := List.mem_cons.mp hother
        · obtain hmem | ⟨hkind', hhead⟩ := hruns
          · exact absurd hmem hlead
          · obtain rfl : c = '\'' := Option.some.inj hhead
            obtain rfl : kind = .error := hkind'
            rw [lexeme_quote h.tail, if_pos (by_contra fun hopen => hquote ⟨rfl, hopen⟩)] at hkind
            cases hkind
        · exact ⟨other, hother, hruns⟩

def memberStart : List Char := "struct [[refl]] S \x7b [[".toList

-- A struct with two fields, in front of the first of them an attribute block with this text.
def memberHeader (text : List Char) : List Char := memberStart ++ (text ++ memberEnd)

def markerToken : Token := ⟨.ident, 9, [], "refl".toList⟩

theorem noBracket_markerToken : NoBracket [markerToken] := by
  intro token hmem
  rw [List.mem_singleton.mp hmem]
  decide

def memberHead : AttributedStruct := structAt 13 'S' [markerToken] noBracket_markerToken

def memberOpening : Token := ⟨.attrOpen, 20, [' '], "[[".toList⟩

-- The fields behind the text of the block, if it ends at byte `start`.
def fieldX (start : Nat) : PlainField where
  type := ⟨.ident, start + 3, [' '], "int".toList⟩
  name := ⟨.ident, start + 7, [' '], ['x']⟩
  semicolon := ⟨.semicolon, start + 8, [], [';']⟩
  type_kind := rfl
  name_kind := rfl
  semicolon_kind := rfl

def fieldY (start : Nat) : PlainField where
  type := ⟨.ident, start + 10, ['\n'], "int".toList⟩
  name := ⟨.ident, start + 14, [' '], ['y']⟩
  semicolon := ⟨.semicolon, start + 15, [], [';']⟩
  type_kind := rfl
  name_kind := rfl
  semicolon_kind := rfl

def memberBrace (start : Nat) : Token := ⟨.rBrace, start + 17, [' '], ['}']⟩

def memberSemicolon (start : Nat) : Token := ⟨.semicolon, start + 18, [], [';']⟩

theorem scan_memberHeader (rest : List Char) :
    (scan (memberStart ++ rest)).items = memberHead.keyword :: memberHead.front (memberOpening ::
      (scanFrom lexeme .eof 22 [] rest).items) := by
  cbv

theorem scan_memberEnd (start : Nat) (lead : List Char) :
    (scanFrom lexeme .eof start lead memberEnd).items =
      (closingAt start lead).behind ((fieldX start).before ((fieldY start).before
        [memberBrace start, memberSemicolon start])) := by
  cbv

theorem noBracket_scanFrom {text : List Char} (h : ']' ∉ text) (start : Nat) (lead : List Char) :
    NoBracket (scanFrom lexeme .eof start lead text).items := by
  fun_induction scanFrom lexeme .eof start lead text with
  | case1 start lead => simp [NoBracket]
  | case2 start lead c rest _ text next hkind ih =>
      exact ih fun hmem => h (List.mem_cons_of_mem c (List.mem_of_mem_drop hmem))
  | case3 start lead c rest _ text next kind hkind ih =>
      intro token hmem
      obtain rfl | hmem := List.mem_cons.mp hmem
      · have hbracket : c ≠ ']' := fun hc => h (hc ▸ List.mem_cons_self)
        have hne := lexeme_ne_rBracket hbracket rest
        change (lexeme c rest).kind = some kind at hkind
        rw [hkind] at hne
        exact fun hkind => hne (congrArg some hkind)
      · exact ih (fun hmem => h (List.mem_cons_of_mem c (List.mem_of_mem_drop hmem))) token hmem

def memberTokens (inner : List Token) (start : Nat) (lead : List Char) : List Token :=
  memberOpening :: (inner ++ (closingAt start lead).behind ((fieldX start).before
    ((fieldY start).before [memberBrace start, memberSemicolon start])))

theorem members_closed {ending : Token} {inner : List Token} (h : NoBracket inner) (start : Nat)
    (lead : List Char) :
    let read := memberHead.members .tolerant ending (memberTokens inner start lead)
    read.outcome = .ok [.field ((fieldX start).decl .publicAccess
        [blockOf memberOpening inner (closingAt start lead)]),
      .field ((fieldY start).decl .publicAccess [])] ∧
      read.recovered = [] ∧ read.rest = [memberSemicolon start] := by
  have hblock := @attributeBlock_closes ending inner h memberOpening (closingAt start lead)
    ((fieldX start).before ((fieldY start).before [memberBrace start, memberSemicolon start]))
  have hopen : memberOpening.kind ≠ .rBrace := by decide
  have hbrace : (memberBrace start).kind ≠ .docComment := by simp [memberBrace]
  have hx := (fieldX start).classBody_before (some memberHead.name.word) .publicAccess hopen
    ((fieldX start).leadingAnnotations_block rfl hblock) ((fieldY start).trailingDoc_before _)
  have hy := @PlainField.classBody_before ending (fieldY start) (some memberHead.name.word)
    .publicAccess _ _ _ _ (fieldY start).type_ne_rBrace
    ((fieldY start).leadingAnnotations_before _)
    (trailingDoc_of_kind hbrace [memberSemicolon start])
  have hboth := hx.trans hy
  have hbrace := @classBody_rBrace .tolerant ending (some memberHead.name.word) .publicAccess
    (memberBrace start) rfl [memberSemicolon start]
  exact ⟨by rw [AttributedStruct.members, memberTokens, hboth.outcome, hbrace]; rfl,
    by rw [AttributedStruct.members, memberTokens, hboth.recovered, hbrace]; rfl,
    by rw [AttributedStruct.members, memberTokens, hboth.rest, hbrace]⟩

theorem members_open {ending : Token} {tokens : List Token} (h : NoBracket tokens) :
    (memberHead.members .tolerant ending (memberOpening :: tokens)).outcome =
      .error (.unexpectedEnd ending.span) := by
  have hlead : leadingAnnotations ending (memberOpening :: tokens) =
      .failed (.unterminated .attribute memberOpening.span) [] := by
    rw [leadingAnnotations_cons, attributeBlock_unterminated h]
    rfl
  have hstep := @memberStep_eq_after ending (memberOpening :: tokens) .tolerant
    (some memberHead.name.word) .publicAccess
  rw [MemberStep.after_failed hlead] at hstep
  have hextends := @classBody_extends .tolerant ending memberOpening (some memberHead.name.word)
    .publicAccess tokens (by decide) (.inl rfl)
  rw [AttributedStruct.members, hextends.outcome, hstep]
  have hresume : resume (memberOpening :: tokens) [] = [] := rfl
  change Except.map _ (classBody .tolerant ending _ _
    (resume (memberOpening :: tokens) [])).outcome = _
  rw [hresume, classBody]
  rfl

-- Does the text stay with the first field, and with nothing else?
def StaysWithMember (text : List Char) : Prop :=
  ∃ parsed head x y, parse .tolerant (memberHeader text) = .ok parsed ∧ parsed.recovered = [] ∧
    parsed.tree.entities = [.classDecl head [.field x, .field y]] ∧ head.name = some "S" ∧
    x.name = "x" ∧ (∃ span, x.annotations = [⟨.attribute, String.ofList (Text.trim text), span⟩]) ∧
    y.name = "y" ∧ y.annotations = []

-- Exactly the text in which something runs on loses its member.
theorem staysWithMember_iff {text : List Char} (h : IsPlain text) :
    StaysWithMember text ↔ ∀ token ∈ tokenize text, ¬RunsOn token := by
  have hitems := scan_memberHeader (text ++ memberEnd)
  constructor
  · rintro ⟨parsed, _, _, _, hparse, hrecovered, _⟩ token hmem hruns
    have hopen := noBracket_of_runsOn h List.not_mem_nil ⟨token, hmem, hruns⟩ 22
    have hmembers := @members_open (scan (memberHeader text)).ending _ hopen
    have hreported := memberHead.scope_front_failed hmembers
    have hall : (scan (memberHeader text)).items = memberHead.keyword :: memberHead.front
        (memberOpening :: (scanFrom lexeme .eof 22 [] (text ++ memberEnd)).items) := hitems
    rw [← hall] at hreported
    cases hout : (scope .tolerant (scan (memberHeader text)).ending false
        (scan (memberHeader text)).items).outcome with
    | error error =>
        rw [parse_of_error hout] at hparse
        cases hparse
    | ok entities =>
        rw [parse_of_ok hout] at hparse
        cases hparse
        exact hreported hrecovered
  · intro hruns
    have hcut := cutBefore_of_plain h hruns ("] int x;".toList ++ '\n' :: nextLine)
    have hscan := @scanFrom_append _ lexeme TokenKind.eof _ _ hcut 22 []
    have hspelled := @spelled_scanFrom _ lexeme TokenKind.eof 22 [] text
    have hinner := noBracket_scanFrom (h.not_mem (c := ']') (by simp)) 22 []
    generalize scanFrom lexeme .eof 22 [] text = first at hscan hspelled hinner
    obtain ⟨hmembers, hreports, hrest⟩ := @members_closed (scan (memberHeader text)).ending _ hinner
      first.ending.start first.ending.lead
    obtain ⟨hout, hrecovered⟩ := memberHead.scope_front .tolerant rfl hmembers hrest
    have hall : (scan (memberHeader text)).items = memberHead.keyword ::
        memberHead.front (memberTokens first.items first.ending.start first.ending.lead) := by
      change (scan (memberStart ++ (text ++ memberEnd))).items = _
      have hend : scanFrom lexeme .eof 22 [] (text ++ memberEnd) = _ := hscan
      rw [hitems, hend]
      exact congrArg (fun items => memberHead.keyword :: memberHead.front (memberOpening ::
        (first.items ++ items))) (scan_memberEnd first.ending.start first.ending.lead)
    rw [← hall] at hout hrecovered
    refine ⟨_, _, _, _, parse_of_ok hout, hrecovered.trans hreports, rfl, rfl, rfl,
      ⟨memberOpening.span.merge (closingAt first.ending.start first.ending.lead).second.span, ?_⟩,
      rfl, rfl⟩
    rw [← List.nil_append text, ← hspelled]
    rfl

theorem staysWithMember_malformed :
    IsPlain "range(1, 'x', =, 2'5, [[ \x7b".toList ∧
      StaysWithMember "range(1, 'x', =, 2'5, [[ \x7b".toList :=
  ⟨by decide, (staysWithMember_iff (by decide)).mpr (by decide +kernel)⟩

theorem not_staysWithMember_hash : ¬∀ text, IsPlain text → StaysWithMember text := by
  intro h
  obtain ⟨parsed, _, _, _, hparse, hrecovered, _⟩ := h ['#'] (by decide)
  have hreports : (parse .tolerant (memberHeader ['#'])).toOption.map (·.recovered.isEmpty) =
      some false := by decide +kernel
  rw [hparse] at hreports
  simp [Except.toOption, hrecovered] at hreports

end Reflection.Header
