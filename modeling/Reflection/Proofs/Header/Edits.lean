import Reflection.Header.Expansion
import Reflection.Proofs.Coverage

namespace Reflection

-- An edit replaces what stands between two byte offsets.
structure Edit where
  span : Span
  replacement : List Char

-- A text that begins at byte `start`, with all edits made and everything else kept. The edits come
-- in the order of the text and do not overlap.
inductive Edited : Nat → List Char → List Edit → List Char → Prop where
  | nil {start : Nat} {text : List Char} : Edited start text [] text
  | cons {start : Nat} {kept replaced rest result : List Char} {edit : Edit} {edits : List Edit}
      (hstart : edit.span.start = start + Text.byteLength kept)
      (hstop : edit.span.stop = edit.span.start + Text.byteLength replaced)
      (hrest : Edited edit.span.stop rest edits result) :
      Edited start (kept ++ (replaced ++ rest)) (edit :: edits)
        (kept ++ (edit.replacement ++ result))

-- The edited text put together from slices: what stands between byte `last` and the next edit, the
-- replacement, and so on. There is none if an offset does not cut the text.
def splice? (text : List Char) (last : Nat) : List Edit → Option (List Char)
  | [] => Text.slice? text last (Text.byteLength text)
  | edit :: edits => do
    let kept ← Text.slice? text last edit.span.start
    let rest ← splice? text edit.span.stop edits
    return kept ++ (edit.replacement ++ rest)

namespace Edited

variable {start : Nat} {kept rest result : List Char} {edits : List Edit}

-- Text in front of all edits is kept.
theorem behind (h : Edited (start + Text.byteLength kept) rest edits result) :
    Edited start (kept ++ rest) edits (kept ++ result) := by
  cases h with
  | nil => exact .nil
  | @cons _ more replaced rest result edit edits hstart hstop hrest =>
      rw [← List.append_assoc, ← List.append_assoc kept]
      refine .cons ?_ hstop hrest
      rw [hstart, Text.byteLength_append, Nat.add_assoc]

-- All slices exist. They follow one another up to the end of the text.
theorem splice?_eq {before : List Char}
    (h : Edited (Text.byteLength before) rest edits result) :
    splice? (before ++ rest) (Text.byteLength before) edits = some result := by
  generalize hbefore : Text.byteLength before = start at h
  induction h generalizing before with
  | @nil start text =>
      rw [splice?, ← hbefore]
      exact Text.slice?_of_isPrefix (List.prefix_refl _)
  | @cons start kept replaced rest result edit edits hstart hstop hrest ih =>
      have hkept : Text.slice? (before ++ (kept ++ (replaced ++ rest))) start edit.span.start =
          some kept := by
        rw [hstart, ← hbefore, ← Text.byteLength_append]
        apply Text.slice?_of_isPrefix
        rw [← List.append_assoc]
        exact List.prefix_append _ _
      have hfront : Text.byteLength (before ++ (kept ++ replaced)) = edit.span.stop := by
        rw [hstop, hstart, ← hbefore, Text.byteLength_append, Text.byteLength_append, Nat.add_assoc]
      have hmore := ih hfront
      simp only [List.append_assoc] at hmore
      rw [splice?, hkept, hmore]
      rfl

theorem unique {other text : List Char} (h : Edited 0 text edits result)
    (hother : Edited 0 text edits other) : other = result :=
  Option.some.inj ((@splice?_eq text other edits [] hother).symm.trans
    (@splice?_eq text result edits [] h))

end Edited

namespace Header

-- An edit for each identifier that names a macro.
def macroEdits (macros : Macros) (text : List Char) : List Edit :=
  (tokenize text).filterMap fun token =>
    if token.kind = .ident then
      ((Text.slice? text token.start token.stop).bind macros.lookup).map (⟨token.span, ·⟩)
    else none

-- Without macros there is nothing to look for.
def spliceMacros? (macros : Macros) (text : List Char) : Option (List Char) :=
  if macros.isEmpty then some text else splice? text 0 (macroEdits macros text)

namespace Macros

variable {macros : Macros}

-- What a token that starts at its offset is replaced by, as an edit.
def edit? (macros : Macros) (token : Token) : Option Edit :=
  if token.kind = .ident then (macros.lookup token.text).map (⟨token.span, ·⟩) else none

theorem edit?_eq_none {token : Token} (h : macros.edit? token = none) :
    replacement macros token = token.text := by
  unfold edit? at h
  unfold replacement
  split
  · next hident =>
    rw [if_pos hident, Option.map_eq_none_iff] at h
    rw [h]
    rfl
  · rfl

theorem edit?_eq_some {token : Token} {edit : Edit} (h : macros.edit? token = some edit) :
    edit.span = token.span ∧ edit.replacement = replacement macros token := by
  unfold edit? at h
  unfold replacement
  split
  · next hident =>
    rw [if_pos hident] at h
    obtain ⟨text, htext, rfl⟩ := Option.map_eq_some_iff.mp h
    rw [htext]
    exact ⟨rfl, rfl⟩
  · next hident =>
    rw [if_neg hident] at h
    cases h

end Macros

theorem macroEdits_eq (macros : Macros) (text : List Char) :
    macroEdits macros text = (scan text).items.filterMap macros.edit? := by
  rw [macroEdits, tokenize, Tokens.toList, List.filterMap_append, List.filterMap_cons_none,
    List.filterMap_nil, List.append_nil]
  · refine List.filterMap_congr fun token hmem => ?_
    rw [Macros.edit?, (scan_placed Lexical.lexeme .eof text).slice hmem, Option.bind_some]
  · rw [kind_ending, if_neg (by decide)]

-- By induction on the tokens that follow `before`.
theorem edited_of_placed {macros : Macros} {text before : List Char} {ending : Token}
    {tokens : List Token} (h : Placed text ending before tokens) :
    ∃ rest, text = before ++ rest ∧ Edited (Text.byteLength before) rest
      (tokens.filterMap macros.edit?) (expandTokens macros ⟨tokens, ending⟩) := by
  induction h with
  | nil htext _ _ => exact ⟨_, htext, by simpa [expandTokens] using .nil⟩
  | @cons before token tokens hstart hrest ih =>
      obtain ⟨rest, htext, hedited⟩ := ih
      refine ⟨token.lead ++ (token.text ++ rest), by simpa [Token.spelled] using htext, ?_⟩
      have hstop : token.stop = token.start + Text.byteLength token.text := rfl
      have hexpand : expandTokens macros ⟨token :: tokens, ending⟩ =
          token.lead ++ (replacement macros token ++ expandTokens macros ⟨tokens, ending⟩) := by
        simp [expandTokens]
      rw [Text.byteLength_append, Token.spelled, Text.byteLength_append, ← Nat.add_assoc] at hedited
      rw [Text.byteLength_append] at hstart
      rw [hexpand]
      -- without an edit the token is kept with what is in front of it
      cases hedit : macros.edit? token with
      | none =>
          rw [List.filterMap_cons_none hedit, Macros.edit?_eq_none hedit]
          exact hedited.behind.behind
      | some edit =>
          obtain ⟨hspan, hreplacement⟩ := Macros.edit?_eq_some hedit
          rw [List.filterMap_cons_some hedit, ← hreplacement]
          refine .cons (by rw [hspan]; exact hstart) (by rw [hspan]; exact hstop) ?_
          rw [hspan]
          change Edited token.stop rest _ _
          rw [hstop, hstart]
          exact hedited

theorem edited_expand (macros : Macros) (text : List Char) :
    Edited 0 text (macroEdits macros text) (expand macros text) := by
  obtain ⟨rest, rfl, hedited⟩ := @edited_of_placed macros _ _ _ _
    (scan_placed Lexical.lexeme .eof text)
  rw [macroEdits_eq]
  exact hedited

theorem macroEdits_congr {macros others : Macros} {text : List Char}
    (h : ∀ token ∈ tokenize text, token.kind = .ident →
      others.lookup token.text = macros.lookup token.text) :
    macroEdits others text = macroEdits macros text := by
  rw [macroEdits_eq, macroEdits_eq]
  refine List.filterMap_congr fun token hmem => ?_
  rw [Macros.edit?, Macros.edit?]
  split
  · next hident => rw [h token (List.mem_append_left _ hmem) hident]
  · rfl

theorem expand_eq_self {macros : Macros} {text : List Char}
    (h : ∀ token ∈ tokenize text, token.kind = .ident → macros.lookup token.text = none) :
    expand macros text = text := by
  have hedits : macroEdits macros text = [] := by
    rw [macroEdits_eq, List.filterMap_eq_nil_iff]
    intro token hmem
    rw [Macros.edit?, ite_eq_right_iff]
    intro hident
    rw [h token (List.mem_append_left _ hmem) hident, Option.map_none]
  exact (hedits ▸ edited_expand macros text).unique .nil |>.symm

-- What expansion does to a text.
structure EditsIdentifiers (macros : Macros) (text : List Char) : Prop where
  -- each identifier that names a macro is replaced, and everything else is kept in its place
  edited : Edited 0 text (macroEdits macros text) (expand macros text)
  -- no other text is the header with these edits
  only : ∀ result, Edited 0 text (macroEdits macros text) result → result = expand macros text
  -- it can be put together from slices, which all exist
  spliced : spliceMacros? macros text = some (expand macros text)
  -- the identifiers of the header are looked up, and not those of the replacements
  names : ∀ others : Macros, (∀ token ∈ tokenize text, token.kind = .ident →
    others.lookup token.text = macros.lookup token.text) → expand others text = expand macros text
  unchanged : (∀ token ∈ tokenize text, token.kind = .ident → macros.lookup token.text = none) →
    expand macros text = text

theorem expand_edits (macros : Macros) (text : List Char) : EditsIdentifiers macros text := by
  have hedited := edited_expand macros text
  constructor
  case edited => exact hedited
  case only => exact fun result hresult => hedited.unique hresult
  case spliced =>
    unfold spliceMacros?
    split
    · next hempty =>
      obtain rfl := List.isEmpty_iff.mp hempty
      rw [expand_eq_self fun _ _ _ => rfl]
    · exact @Edited.splice?_eq text (expand macros text) _ [] hedited
  case names =>
    intro others hothers
    exact hedited.unique (macroEdits_congr hothers ▸ edited_expand others text)
  case unchanged => exact expand_eq_self

-- Comments, literals and longer names are kept, and the names in a replacement are not looked up.
example : expand [("A", "B A"), ("B", "C")] "A AB /*A*/ \"B\" B".toList =
    "B A AB /*A*/ \"B\" C".toList := by decide +kernel

end Header

end Reflection
