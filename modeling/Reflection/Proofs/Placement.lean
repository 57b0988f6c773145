import Reflection.Proofs.Scanning

namespace Reflection

namespace Text

-- A byte offset at which the text can be cut.
def IsBoundary (text : List Char) (offset : Nat) : Prop :=
  ∃ before, before <+: text ∧ byteLength before = offset

-- What follows the first `count` bytes; nothing if the text is shorter, or if a character stands
-- across the cut.
def dropBytes? : Nat → List Char → Option (List Char)
  | 0, text => some text
  | _ + 1, [] => none
  | count + 1, c :: rest =>
    if c.utf8Size ≤ count + 1 then dropBytes? (count + 1 - c.utf8Size) rest else none

-- The first `count` bytes, in the same cases.
def takeBytes? : Nat → List Char → Option (List Char)
  | 0, _ => some []
  | _ + 1, [] => none
  | count + 1, c :: rest =>
    if c.utf8Size ≤ count + 1 then (takeBytes? (count + 1 - c.utf8Size) rest).map (c :: ·)
    else none

-- The text between two byte offsets. There is none if they are out of order, behind the end, or
-- inside a character.
def slice? (text : List Char) (start stop : Nat) : Option (List Char) :=
  if start ≤ stop then (dropBytes? start text).bind (takeBytes? (stop - start)) else none

-- A character takes at least one byte.
theorem exists_byteLength_cons (c : Char) (rest : List Char) :
    ∃ count, byteLength (c :: rest) = count + 1 ∧ c.utf8Size ≤ count + 1 ∧
      count + 1 - c.utf8Size = byteLength rest := by
  have hsize := c.utf8Size_pos
  have hlength : byteLength (c :: rest) = c.utf8Size + byteLength rest := rfl
  exact ⟨byteLength (c :: rest) - 1, by omega, by omega, by omega⟩

theorem dropBytes?_append (before rest : List Char) :
    dropBytes? (byteLength before) (before ++ rest) = some rest := by
  induction before with
  | nil => cases rest <;> rfl
  | cons c before ih =>
      obtain ⟨count, hlength, hsize, hleft⟩ := exists_byteLength_cons c before
      rw [hlength, List.cons_append, dropBytes?, if_pos hsize, hleft, ih]

-- An offset cuts a text in one way.
theorem append_inj_of_byteLength {before after first rest : List Char}
    (h : before ++ after = first ++ rest) (hlength : byteLength before = byteLength first) :
    before = first ∧ after = rest := by
  have hafter := dropBytes?_append before after
  rw [hlength, h, dropBytes?_append] at hafter
  obtain rfl := Option.some.inj hafter
  exact ⟨List.append_cancel_right h, rfl⟩

theorem takeBytes?_append (first rest : List Char) :
    takeBytes? (byteLength first) (first ++ rest) = some first := by
  induction first with
  | nil => cases rest <;> rfl
  | cons c first ih =>
      obtain ⟨count, hlength, hsize, hleft⟩ := exists_byteLength_cons c first
      rw [hlength, List.cons_append, takeBytes?, if_pos hsize, hleft, ih]
      rfl

-- Between two boundaries there is a slice, namely what stands there.
theorem slice?_of_isPrefix {text before between : List Char} (h : before ++ between <+: text) :
    slice? text (byteLength before) (byteLength (before ++ between)) = some between := by
  obtain ⟨rest, rfl⟩ := h
  rw [slice?, if_pos (by simp), byteLength_append, Nat.add_sub_cancel_left, List.append_assoc,
    dropBytes?_append, Option.bind_some, takeBytes?_append]

theorem byteLength_le_of_isPrefix {before text : List Char} (h : before <+: text) :
    byteLength before ≤ byteLength text := by
  obtain ⟨rest, rfl⟩ := h
  rw [byteLength_append]
  exact Nat.le_add_right _ _

theorem IsBoundary.le {text : List Char} {offset : Nat} (h : IsBoundary text offset) :
    offset ≤ byteLength text := by
  obtain ⟨before, hprefix, rfl⟩ := h
  exact byteLength_le_of_isPrefix hprefix

theorem isBoundary_of_isPrefix {before text : List Char} (h : before <+: text) :
    IsBoundary text (byteLength before) := ⟨before, h, rfl⟩

end Text

-- The tokens that follow `before` in a text, up to its end.
inductive Placed {κ : Type} (text : List Char) (ending : Token κ) :
    List Char → List (Token κ) → Prop where
  | nil {before : List Char} (htext : text = before ++ ending.lead)
      (hstart : ending.start = Text.byteLength text) (hnone : ending.text = []) :
      Placed text ending before []
  | cons {before : List Char} {token : Token κ} {rest : List (Token κ)}
      (hstart : token.start = Text.byteLength (before ++ token.lead))
      (hrest : Placed text ending (before ++ token.spelled) rest) :
      Placed text ending before (token :: rest)

namespace Placed

variable {κ : Type} {text before : List Char} {ending token : Token κ}
  {rest tokens : List (Token κ)}

theorem isPrefix_before (h : Placed text ending before tokens) : before <+: text := by
  induction h with
  | nil htext _ _ => exact ⟨_, htext.symm⟩
  | cons _ _ ih => exact (List.prefix_append _ _).trans ih

theorem isPrefix_spelled (h : Placed text ending before (token :: rest)) :
    before ++ token.spelled <+: text := by
  cases h with
  | cons _ hrest => exact hrest.isPrefix_before

theorem isPrefix_lead (h : Placed text ending before (token :: rest)) :
    before ++ token.lead <+: text := by
  refine List.IsPrefix.trans ⟨token.text, ?_⟩ h.isPrefix_spelled
  rw [List.append_assoc, Token.spelled]

theorem stop_eq (h : Placed text ending before (token :: rest)) :
    token.stop = Text.byteLength (before ++ token.spelled) := by
  cases h with
  | cons hstart _ =>
      rw [Token.stop, hstart, ← Text.byteLength_append, List.append_assoc, Token.spelled]

-- The tokens that are left at some place follow what has been read up to there.
theorem of_suffix (h : Placed text ending before tokens) (hrest : rest <:+ tokens) :
    ∃ more, Placed text ending (before ++ more) rest := by
  obtain ⟨front, rfl⟩ := hrest
  induction front generalizing before with
  | nil => exact ⟨[], by simpa using h⟩
  | cons token front ih =>
      cases h with
      | cons _ hrest =>
          obtain ⟨more, hmore⟩ := ih hrest
          exact ⟨token.spelled ++ more, by simpa using hmore⟩

end Placed

-- By induction on the pieces: what has been skipped joins the lead of the next token.
theorem scanFrom_placed {κ : Type} {rule : Char → List Char → Lexeme κ} {ending : κ}
    {before lead rest : List Char} {start : Nat}
    (hstart : start = Text.byteLength (before ++ lead)) :
    Placed (before ++ lead ++ rest) (scanFrom rule ending start lead rest).ending before
      (scanFrom rule ending start lead rest).items := by
  fun_induction scanFrom rule ending start lead rest generalizing before with
  | case1 start lead => exact .nil (by simp) (by simpa using hstart) rfl
  | case2 start lead c rest lexeme text next hkind =>
      rename_i ih
      have hnext : next = Text.byteLength (before ++ (lead ++ text)) := by
        rw [← List.append_assoc, Text.byteLength_append, ← hstart]
      have hplaced := ih hnext
      rwa [← List.append_assoc, List.append_assoc _ text, List.cons_append,
        List.take_append_drop] at hplaced
  | case3 start lead c rest lexeme text next kind hkind =>
      rename_i ih
      have hnext : next = Text.byteLength (before ++ (lead ++ text) ++ []) := by
        rw [List.append_nil, ← List.append_assoc, Text.byteLength_append, ← hstart]
      have hplaced := ih hnext
      rw [List.append_nil, ← List.append_assoc before, List.append_assoc _ text, List.cons_append,
        List.take_append_drop] at hplaced
      refine .cons hstart ?_
      rw [Token.spelled, ← List.append_assoc before]
      exact hplaced

-- A token is what the rule says of the text at the place where it starts.
theorem lexeme_of_mem {κ : Type} {rule : Char → List Char → Lexeme κ} {ending : κ}
    {start : Nat} {lead text : List Char} {token : Token κ}
    (hmem : token ∈ (scanFrom rule ending start lead text).items) :
    ∃ before c rest, text = before ++ c :: rest ∧
      token.start = start + Text.byteLength before ∧ (rule c rest).kind = some token.kind ∧
      token.text = c :: rest.take (rule c rest).extra := by
  fun_induction scanFrom rule ending start lead text with
  | case1 => cases hmem
  | case2 start lead c rest lexeme text next hkind ih =>
      obtain ⟨before, d, after, htext, hstart, hrule⟩ := ih hmem
      refine ⟨text ++ before, d, after, ?_, ?_, hrule⟩
      · rw [List.append_assoc, ← htext]
        simp [text]
      · rw [hstart, Text.byteLength_append, Nat.add_assoc]
  | case3 start lead c rest lexeme text next kind hkind ih =>
      obtain rfl | hmem := List.mem_cons.mp hmem
      · exact ⟨[], c, rest, rfl, rfl, hkind, rfl⟩
      · obtain ⟨before, d, after, htext, hstart, hrule⟩ := ih hmem
        refine ⟨text ++ before, d, after, ?_, ?_, hrule⟩
        · rw [List.append_assoc, ← htext]
          simp [text]
        · rw [hstart, Text.byteLength_append, Nat.add_assoc]

-- The tokens of a text stand in it from its start to its end.
theorem scan_placed {κ : Type} (rule : Char → List Char → Lexeme κ) (ending : κ)
    (text : List Char) :
    Placed text (scan rule ending text).ending [] (scan rule ending text).items :=
  @scanFrom_placed κ rule ending [] [] text 0 rfl

-- Cutting the text at the offsets of a token gives the text of the token.
theorem Placed.slice {κ : Type} {text before : List Char} {ending token : Token κ}
    {tokens : List (Token κ)} (h : Placed text ending before tokens) (hmem : token ∈ tokens) :
    Text.slice? text token.start token.stop = some token.text := by
  induction h with
  | nil => cases hmem
  | @cons before first rest hstart hrest ih =>
      obtain rfl | hmem := List.mem_cons.mp hmem
      · have hplaced := Placed.cons hstart hrest
        rw [hplaced.stop_eq, hstart, Token.spelled, ← List.append_assoc]
        apply Text.slice?_of_isPrefix
        rw [List.append_assoc]
        exact hplaced.isPrefix_spelled
      · exact ih hmem

end Reflection
