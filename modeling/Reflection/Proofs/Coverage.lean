import Reflection.Proofs.Header.Endings
import Reflection.Proofs.Metadata.Lexemes
import Reflection.Proofs.Placement

namespace Reflection

variable {κ : Type}

-- Text that is put together from pieces. A piece may depend on what stands behind it.
inductive Skipped (piece : List Char → List Char → Prop) : List Char → List Char → Prop where
  | nil {behind : List Char} : Skipped piece [] behind
  | cons {first more behind : List Char} (hfirst : piece first (more ++ behind))
      (hmore : Skipped piece more behind) : Skipped piece (first ++ more) behind

namespace Skipped

variable {piece : List Char → List Char → Prop} {gap more behind : List Char}

theorem single (h : piece gap behind) : Skipped piece gap behind := by
  rw [← List.append_nil gap]
  exact .cons (by simpa using h) .nil

theorem append (h : Skipped piece gap (more ++ behind)) (hmore : Skipped piece more behind) :
    Skipped piece (gap ++ more) behind := by
  generalize hnext : more ++ behind = next at h
  induction h with
  | nil => simpa using hmore
  | cons hfirst _ ih =>
      subst hnext
      rw [List.append_assoc]
      exact .cons (by simpa using hfirst) (ih rfl)

theorem of_forall_mem {c : Char → Prop} (hpiece : ∀ d, c d → ∀ behind, piece [d] behind)
    (h : ∀ d ∈ gap, c d) (behind : List Char) : Skipped piece gap behind := by
  induction gap with
  | nil => exact .nil
  | cons d gap ih =>
      rw [List.forall_mem_cons] at h
      rw [← List.singleton_append]
      exact .cons (hpiece d h.1 _) (ih h.2)

end Skipped

-- The tokens of a text from byte offset `start` on: skipped text and a token, again and again, and
-- skipped text up to the end.
inductive Covering (piece : List Char → List Char → Prop) (ending : Token κ) :
    Nat → List (Token κ) → List Char → Prop where
  | nil {start : Nat} {gap : List Char} (hgap : Skipped piece gap [])
      (hstart : ending.start = start + Text.byteLength gap) (htext : ending.text = []) :
      Covering piece ending start [] gap
  | cons {start : Nat} {token : Token κ} {tokens : List (Token κ)} {gap rest : List Char}
      (hgap : Skipped piece gap (token.text ++ rest)) (htext : token.text ≠ [])
      (hkind : token.kind ≠ ending.kind) (hstart : token.start = start + Text.byteLength gap)
      (hrest : Covering piece ending token.stop tokens rest) :
      Covering piece ending start (token :: tokens) (gap ++ (token.text ++ rest))

-- By induction on the pieces of the text: what has been skipped since the last token is a gap.
theorem covering_scanFrom {piece : List Char → List Char → Prop}
    {rule : Char → List Char → Lexeme κ} {eof : κ}
    (hskip : ∀ c rest, (rule c rest).kind = none →
      Skipped piece (c :: rest.take (rule c rest).extra) (rest.drop (rule c rest).extra))
    (hkind : ∀ c rest, (rule c rest).kind ≠ some eof)
    {first start : Nat} {lead text : List Char} (hlead : Skipped piece lead text)
    (hstart : start = first + Text.byteLength lead) :
    (scanFrom rule eof start lead text).ending.kind = eof ∧
      Covering piece (scanFrom rule eof start lead text).ending first
        (scanFrom rule eof start lead text).items (lead ++ text) := by
  fun_induction scanFrom rule eof start lead text generalizing first with
  | case1 start lead => exact ⟨rfl, by simpa using .nil hlead hstart rfl⟩
  | case2 start lead c rest lexeme text next hnone =>
      rename_i ih
      have hcut : c :: rest = text ++ rest.drop lexeme.extra := by simp [text]
      have hgap : Skipped piece (lead ++ text) (rest.drop lexeme.extra) :=
        .append (hcut ▸ hlead) (hskip c rest hnone)
      have hcovering := ih hgap (by rw [Text.byteLength_append, ← Nat.add_assoc, ← hstart])
      rwa [List.append_assoc, ← hcut] at hcovering
  | case3 start lead c rest lexeme text next kind hsome =>
      rename_i ih
      have hcut : c :: rest = text ++ rest.drop lexeme.extra := by simp [text]
      obtain ⟨heof, hrest⟩ := @ih next .nil rfl
      have hne : kind ≠ eof := fun h => hkind c rest (h ▸ hsome)
      rw [hcut] at hlead ⊢
      exact ⟨heof, .cons hlead (List.cons_ne_nil _ _) (by simpa [Tokens.cons, heof] using hne)
        hstart hrest⟩

-- Skipped text from one token to the next, or from the start of the text.
structure Gap (piece : List Char → List Char → Prop) (tokens : List (Token κ))
    (front gap behind : List Char) : Prop where
  skipped : Skipped piece gap behind
  follows : front = [] ∨ ∃ token ∈ tokens, token.stop = Text.byteLength front
  precedes : ∃ token ∈ tokens, token.start = Text.byteLength (front ++ gap)
  outside : ∀ token ∈ tokens, token.stop ≤ Text.byteLength front ∨
    Text.byteLength (front ++ gap) ≤ token.start

-- A list of tokens covers a text: they stand in it one behind the other, with a token of no length
-- for the end of the text, and every byte that is in none of them is in a gap between them.
structure Covers (piece : List Char → List Char → Prop) (eof : κ) (text : List Char)
    (tokens : List (Token κ)) : Prop where
  ending : ∃ items ending, tokens = items ++ [ending] ∧ ending.kind = eof ∧
    ending.span = ⟨Text.byteLength text, Text.byteLength text⟩ ∧
    ∀ token ∈ items, token.kind ≠ eof ∧ token.start < token.stop
  ordered : tokens.Pairwise (·.stop ≤ ·.start)
  boundary : ∀ token ∈ tokens,
    Text.IsBoundary text token.start ∧ Text.IsBoundary text token.stop
  skipped : ∀ offset < Text.byteLength text,
    (∃ token ∈ tokens, token.start ≤ offset ∧ offset < token.stop) ∨
      ∃ front gap behind, text = front ++ gap ++ behind ∧ Gap piece tokens front gap behind ∧
        Text.byteLength front ≤ offset ∧ offset < Text.byteLength (front ++ gap)

namespace Covering

variable {piece : List Char → List Char → Prop} {ending token : Token κ}
  {tokens : List (Token κ)} {start : Nat} {before rest : List Char}

theorem start_le (h : Covering piece ending start tokens rest) :
    ∀ token ∈ tokens ++ [ending], start ≤ token.start := by
  induction h with
  | nil _ hstart _ => simpa using hstart.ge.trans' (Nat.le_add_right _ _)
  | @cons start token tokens gap rest _ _ _ hstart _ ih =>
      have hle : start ≤ token.start := by omega
      have hstop : token.start ≤ token.stop := Nat.le_add_right _ _
      intro other hmem
      rcases List.mem_cons.mp hmem with rfl | hmem
      · exact hle
      · have := ih other hmem
        omega

theorem ordered (h : Covering piece ending start tokens rest) :
    (tokens ++ [ending]).Pairwise (·.stop ≤ ·.start) := by
  induction h with
  | nil => exact List.pairwise_singleton _ _
  | cons _ _ _ _ hrest ih => exact List.pairwise_cons.mpr ⟨hrest.start_le, ih⟩

theorem items (h : Covering piece ending start tokens rest) :
    ∀ token ∈ tokens, token.kind ≠ ending.kind ∧ token.start < token.stop := by
  induction h with
  | nil => simp
  | @cons _ token _ _ _ _ htext hkind _ _ ih =>
      refine List.forall_mem_cons.mpr ⟨⟨hkind, ?_⟩, ih⟩
      obtain ⟨c, more, hcons⟩ := List.exists_cons_of_ne_nil htext
      have hsize := c.utf8Size_pos
      rw [Token.stop, hcons, Text.byteLength]
      omega

theorem span_ending (h : Covering piece ending start tokens rest) :
    ending.span = ⟨start + Text.byteLength rest, start + Text.byteLength rest⟩ := by
  induction h with
  | nil _ hstart htext => simp [Token.span, Token.stop, htext, hstart, Text.byteLength]
  | @cons _ token _ _ _ _ _ _ hstart _ ih =>
      rw [ih, Token.stop, hstart, Text.byteLength_append, Text.byteLength_append]
      simp only [Nat.add_assoc]

theorem offsets {gap : List Char}
    (h : token.start = Text.byteLength before + Text.byteLength gap) :
    token.start = Text.byteLength (before ++ gap) ∧
      Text.byteLength (before ++ gap ++ token.text) = token.stop := by
  rw [← Text.byteLength_append] at h
  exact ⟨h, by rw [Text.byteLength_append, ← h, Token.stop]⟩

theorem boundary (h : Covering piece ending (Text.byteLength before) tokens rest) :
    ∀ token ∈ tokens ++ [ending], Text.IsBoundary (before ++ rest) token.start ∧
      Text.IsBoundary (before ++ rest) token.stop := by
  generalize hstart : Text.byteLength before = start at h
  induction h generalizing before with
  | @nil start gap _ hending htext =>
      have hend : ending.start = Text.byteLength (before ++ gap) := by
        rw [hending, Text.byteLength_append, hstart]
      have hboundary := Text.isBoundary_of_isPrefix (List.prefix_refl (before ++ gap))
      simpa [Token.stop, htext, Text.byteLength, hend] using hboundary
  | @cons start token tokens gap rest _ _ _ htoken _ ih =>
      subst hstart
      obtain ⟨hfirst, hstop⟩ := offsets htoken
      have hcut :
          before ++ (gap ++ (token.text ++ rest)) = before ++ gap ++ token.text ++ rest := by
        simp only [List.append_assoc]
      rw [hcut]
      refine List.forall_mem_cons.mpr ⟨⟨?_, ?_⟩, ih hstop⟩
      · rw [hfirst, List.append_assoc _ token.text]
        exact Text.isBoundary_of_isPrefix (List.prefix_append _ _)
      · rw [← hstop]
        exact Text.isBoundary_of_isPrefix (List.prefix_append _ _)

-- A byte behind `before` is in a token, or in a gap that starts there or behind a token.
theorem skipped (h : Covering piece ending (Text.byteLength before) tokens rest) {offset : Nat}
    (hlower : Text.byteLength before ≤ offset)
    (hupper : offset < Text.byteLength (before ++ rest)) :
    (∃ token ∈ tokens ++ [ending], token.start ≤ offset ∧ offset < token.stop) ∨
      ∃ front gap behind, before ++ rest = front ++ gap ++ behind ∧ Skipped piece gap behind ∧
        (front = before ∨ ∃ token ∈ tokens, token.stop = Text.byteLength front) ∧
        (∃ token ∈ tokens ++ [ending], token.start = Text.byteLength (front ++ gap)) ∧
        (∀ token ∈ tokens ++ [ending], token.stop ≤ Text.byteLength front ∨
          Text.byteLength (front ++ gap) ≤ token.start) ∧
        Text.byteLength front ≤ offset ∧ offset < Text.byteLength (front ++ gap) := by
  generalize hstart : Text.byteLength before = start at h
  induction h generalizing before with
  | @nil start gap hgap hending _ =>
      have hend : ending.start = Text.byteLength (before ++ gap) := by
        rw [hending, Text.byteLength_append, hstart]
      exact .inr ⟨before, gap, [], (List.append_nil _).symm, hgap, .inl rfl, by simpa using hend,
        by simp [hend], hlower, hupper⟩
  | @cons start token tokens gap rest hgap _ _ htoken hrest ih =>
      subst hstart
      obtain ⟨hfirst, hstop⟩ := offsets htoken
      have hcut :
          before ++ (gap ++ (token.text ++ rest)) = before ++ gap ++ token.text ++ rest := by
        simp only [List.append_assoc]
      have htokens : ∀ other ∈ tokens ++ [ending], token.stop ≤ other.start := hrest.start_le
      have hlength : token.start ≤ token.stop := Nat.le_add_right _ _
      by_cases hingap : offset < token.start
      · refine .inr ⟨before, gap, token.text ++ rest, by simp, hgap, .inl rfl,
          ⟨token, List.mem_cons_self, hfirst⟩, ?_, hlower, hfirst ▸ hingap⟩
        refine List.forall_mem_cons.mpr ⟨.inr hfirst.ge, fun other hmem => .inr ?_⟩
        have := htokens other hmem
        omega
      by_cases hintoken : offset < token.stop
      · exact .inl ⟨token, List.mem_cons_self, by omega, hintoken⟩
      rw [hcut] at hupper ⊢
      rcases ih (by omega) hupper hstop with ⟨other, hmem, hin⟩ | hgap
      · exact .inl ⟨other, List.mem_cons_of_mem _ hmem, hin⟩
      · obtain ⟨front, inner, behind, htext, hskipped, hfollows, hprecedes, houtside, hin⟩ := hgap
        obtain ⟨next, hnext, hnextStart⟩ := hprecedes
        have hfront : ∃ other ∈ token :: tokens, other.stop = Text.byteLength front := by
          rcases hfollows with rfl | ⟨other, hmem, hother⟩
          · exact ⟨token, List.mem_cons_self, hstop.symm⟩
          · exact ⟨other, List.mem_cons_of_mem _ hmem, hother⟩
        have hbehind : token.stop ≤ Text.byteLength front := by
          rcases hfollows with rfl | ⟨other, hmem, hother⟩
          · exact hstop.ge
          · have hother' : other.start ≤ other.stop := Nat.le_add_right _ _
            have := htokens other (List.mem_append_left _ hmem)
            omega
        exact .inr ⟨front, inner, behind, htext, hskipped, .inr hfront,
          ⟨next, List.mem_cons_of_mem _ hnext, hnextStart⟩,
          List.forall_mem_cons.mpr ⟨.inl hbehind, houtside⟩, hin⟩

end Covering

section Scan

variable {piece : List Char → List Char → Prop} {rule : Char → List Char → Lexeme κ} {eof : κ}

theorem covering_scan
    (hskip : ∀ c rest, (rule c rest).kind = none →
      Skipped piece (c :: rest.take (rule c rest).extra) (rest.drop (rule c rest).extra))
    (hkind : ∀ c rest, (rule c rest).kind ≠ some eof) (text : List Char) :
    (scan rule eof text).ending.kind = eof ∧
      Covering piece (scan rule eof text).ending 0 (scan rule eof text).items text :=
  covering_scanFrom hskip hkind .nil rfl

theorem covers_scan
    (hskip : ∀ c rest, (rule c rest).kind = none →
      Skipped piece (c :: rest.take (rule c rest).extra) (rest.drop (rule c rest).extra))
    (hkind : ∀ c rest, (rule c rest).kind ≠ some eof) (text : List Char) :
    Covers piece eof text (scan rule eof text).toList := by
  obtain ⟨heof, hcovering⟩ := covering_scan hskip hkind text
  have hend := hcovering.span_ending
  rw [Nat.zero_add] at hend
  constructor
  case ending => exact ⟨_, _, rfl, heof, hend, by simpa only [heof] using hcovering.items⟩
  case ordered => exact hcovering.ordered
  case boundary => exact @Covering.boundary κ piece _ _ [] text hcovering
  case skipped =>
    intro offset hoffset
    rcases @Covering.skipped κ piece _ _ [] text hcovering _ (Nat.zero_le _) hoffset
      with htoken | hgap
    · exact .inl htoken
    · obtain ⟨front, gap, behind, htext, hskipped, hfollows, hprecedes, houtside, hin⟩ := hgap
      have hfollows : front = [] ∨ ∃ token ∈ (scan rule eof text).toList,
          token.stop = Text.byteLength front :=
        hfollows.imp_right fun ⟨token, hmem, hstop⟩ => ⟨token, List.mem_append_left _ hmem, hstop⟩
      exact .inr ⟨front, gap, behind, htext, ⟨hskipped, hfollows, hprecedes, houtside⟩, hin⟩

end Scan

end Reflection

namespace Reflection.Metadata

open Lexical (lexeme)

-- Only blanks are skipped in annotation text.
def SkippedPiece (piece _behind : List Char) : Prop :=
  ∃ c ∈ [' ', '\t', '\r', '\n', '\x0c'], piece = [c]

theorem skipped_of_lexeme (c : Char) (rest : List Char) (h : (lexeme c rest).kind = none) :
    Skipped SkippedPiece (c :: rest.take (lexeme c rest).extra)
      (rest.drop (lexeme c rest).extra) := by
  have hpiece : lexeme c rest = ⟨none, (lexeme c rest).extra⟩ := by rw [← h]
  exact .of_forall_mem (fun d hd _ => ⟨d, isBlank_iff.mp hd, rfl⟩) (blank_of_lexeme hpiece) _

theorem lexeme_ne_eof (c : Char) (rest : List Char) : (lexeme c rest).kind ≠ some .eof := by
  unfold lexeme
  repeat' split
  case h_1 => exact literalLexeme_ne (by simp) (by simp) _
  all_goals simp [Lexical.number]

end Reflection.Metadata

namespace Reflection.Header

open Lexical

-- A preprocessor line behind its `#`; a backslash takes the character behind it along.
inductive DirectiveBody : List Char → Prop where
  | nil : DirectiveBody []
  | plain {c : Char} {rest : List Char} (hline : c ≠ '\n') (hescape : c ≠ '\\')
      (hrest : DirectiveBody rest) : DirectiveBody (c :: rest)
  | continued {c : Char} {rest : List Char} (hrest : DirectiveBody rest) :
      DirectiveBody ('\\' :: c :: rest)

-- What is skipped in a header, and what may stand behind it.
inductive SkippedPiece : List Char → List Char → Prop where
  | blank {c : Char} {behind : List Char} (h : c ∈ [' ', '\t', '\r', '\n', '\x0c']) :
      SkippedPiece [c] behind
  -- not a documentation comment
  | lineComment {body behind : List Char} (hdoc : body.head? ≠ some '/') (hline : '\n' ∉ body)
      (hend : behind.head?.all (· = '\n') = true) : SkippedPiece ('/' :: '/' :: body) behind
  | blockComment {body behind : List Char} (hbody : ¬['*', '/'] <:+: body) :
      SkippedPiece ('/' :: '*' :: (body ++ ['*', '/'])) behind
  | openComment {body : List Char} (hbody : ¬['*', '/'] <:+: body) :
      SkippedPiece ('/' :: '*' :: body) []
  -- only a backslash that ends the text stops it within the line
  | directive {body behind : List Char} (hbody : DirectiveBody body)
      (hend : behind.head?.all (· = '\n') = true ∨ behind = ['\\']) :
      SkippedPiece ('#' :: body) behind

theorem directiveBody_take (text : List Char) :
    DirectiveBody (text.take (directiveLength text)) := by
  fun_induction directiveLength text with
  | case1 c rest ih => exact .continued ih
  | case2 => exact .nil
  | case3 c rest hpair hc ih =>
      simp only [Bool.or_eq_true, decide_eq_true_eq, not_or] at hc
      exact .plain hc.1 hc.2 ih
  | case4 => exact .nil

-- A block comment ends with the first `*/`, or with the text if there is none.
theorem blockComment_take (inner : List Char) :
    (∃ body, inner.take (blockCommentLength inner) = body ++ ['*', '/'] ∧
      ¬['*', '/'] <:+: body) ∨
    (inner.drop (blockCommentLength inner) = [] ∧ ¬['*', '/'] <:+: inner) := by
  fun_induction blockCommentLength inner with
  | case1 rest => exact .inl ⟨[], rfl, by simp⟩
  | case2 c rest hopen ih =>
      rw [List.take_succ_cons, List.drop_succ_cons]
      rcases ih with ⟨body, htake, hbody⟩ | ⟨hdrop, hrest⟩
      · refine .inl ⟨c :: body, by rw [htake, List.cons_append], ?_⟩
        intro hinfix
        rcases List.infix_cons_iff.mp hinfix with hstart | hinfix
        · obtain ⟨hc, tail, rfl⟩ : c = '*' ∧ ∃ tail, body = '/' :: tail := by
            obtain ⟨tail, htail⟩ := hstart
            obtain ⟨hc, hbody⟩ := List.cons.inj htail
            exact ⟨hc.symm, tail, hbody.symm⟩
          have hcut := List.take_append_drop (blockCommentLength rest) rest
          rw [htake] at hcut
          exact hopen _ hc hcut.symm
        · exact hbody hinfix
      · refine .inr ⟨hdrop, fun hinfix => ?_⟩
        rcases List.infix_cons_iff.mp hinfix with hstart | hinfix
        · obtain ⟨tail, htail⟩ := hstart
          obtain ⟨hc, hcut⟩ := List.cons.inj htail
          exact hopen tail hc.symm hcut.symm
        · exact hrest hinfix
  | case3 => exact .inr ⟨rfl, by simp⟩

theorem skipped_slash (rest : List Char) (h : (lexeme '/' rest).kind = none) :
    SkippedPiece ('/' :: rest.take (lexeme '/' rest).extra)
      (rest.drop (lexeme '/' rest).extra) := by
  by_cases hother : rest.head?.all (fun d => d ≠ '/' && d ≠ '*') = true
  · rw [lexeme_slash hother] at h
    cases h
  cases rest with
  | nil => simp at hother
  | cons d rest =>
      by_cases hslash : d = '/'
      · subst hslash
        rw [lexeme_comment] at h ⊢
        have hlength : restOfLine ('/' :: rest) = (rest.takeWhile (· ≠ '\n')).length + 1 := by
          simp [restOfLine]
        rw [hlength, List.take_succ_cons, List.drop_succ_cons, take_takeWhile]
        refine .lineComment ?_ (fun hmem => ?_) ?_
        · intro hhead
          have hdoc : rest.head? = some '/' := by
            cases rest with
            | nil => simp at hhead
            | cons e rest =>
                by_cases he : e = '\n'
                · simp [he] at hhead
                · simpa [he] using hhead
          simp [hdoc] at h
        · simpa using List.mem_takeWhile_imp hmem
        · have hend := head?_drop_takeWhile (· ≠ '\n') rest
          cases hhead : (rest.drop (rest.takeWhile (· ≠ '\n')).length).head? with
          | none => rfl
          | some e =>
              rw [hhead] at hend
              simpa using hend
      · have hstar : d = '*' := by simpa [hslash] using hother
        subst hstar
        rw [lexeme_block, List.take_succ_cons, List.drop_succ_cons]
        rcases blockComment_take rest with ⟨body, htake, hbody⟩ | ⟨hdrop, hbody⟩
        · rw [htake]
          exact .blockComment hbody
        · have hall := List.take_append_drop (blockCommentLength rest) rest
          rw [hdrop, List.append_nil] at hall
          rw [hdrop, hall]
          exact .openComment hbody

theorem skipped_of_lexeme (c : Char) (rest : List Char) (h : (lexeme c rest).kind = none) :
    Skipped SkippedPiece (c :: rest.take (lexeme c rest).extra)
      (rest.drop (lexeme c rest).extra) := by
  rcases (lexed_lexeme c rest).skipped h with rfl | rfl | hblank
  · exact .single (skipped_slash rest h)
  · rw [lexeme_hash]
    have hlength : (rest.take (directiveLength rest)).length = directiveLength rest :=
      List.length_take_of_le (directiveLength_le rest)
    exact .single (.directive (directiveBody_take rest)
      (end_of_directiveLength (by rw [List.take_append_drop, hlength])))
  · rw [lexeme_blank hblank]
    dsimp only
    rw [take_takeWhile]
    refine .of_forall_mem (fun d hd _ => .blank (isBlank_iff.mp hd)) ?_ _
    rw [List.forall_mem_cons]
    exact ⟨hblank, fun d hd => List.mem_takeWhile_imp hd⟩

-- No piece of a header is the end of it, and only a quote starts a string literal.
theorem lexeme_kind (c : Char) (rest : List Char) :
    (lexeme c rest).kind ≠ some .eof ∧ ((lexeme c rest).kind = some .string → c = '"') := by
  unfold lexeme
  repeat' split
  case h_6 =>
    have hne {kind : TokenKind} (hchar : .char ≠ kind) (herror : .error ≠ kind) :=
      @literalLexeme_ne _ '\'' false _ _ _ hchar herror rest
    exact ⟨hne (by decide) (by decide), fun h => absurd h (hne (by decide) (by decide))⟩
  all_goals
    simp [@wordKind_ne .eof (by decide) (by decide), @wordKind_ne .string (by decide) (by decide)]

theorem lexeme_ne_eof (c : Char) (rest : List Char) : (lexeme c rest).kind ≠ some .eof :=
  (lexeme_kind c rest).1

theorem kind_ending (text : List Char) : (scan text).ending.kind = .eof :=
  (covering_scan skipped_of_lexeme lexeme_ne_eof text).1

end Reflection.Header

namespace Reflection

-- Both scanners lose nothing of any text: its tokens follow one another without touching the text
-- between them, which consists of blanks, and in a header also of plain comments and preprocessor
-- lines.
theorem tokenize_covers (text : List Char) :
    Covers Header.SkippedPiece .eof text (Header.tokenize text) ∧
      Covers Metadata.SkippedPiece .eof text (Metadata.tokenize text) :=
  ⟨covers_scan Header.skipped_of_lexeme Header.lexeme_ne_eof text,
    covers_scan Metadata.skipped_of_lexeme Metadata.lexeme_ne_eof text⟩

end Reflection
