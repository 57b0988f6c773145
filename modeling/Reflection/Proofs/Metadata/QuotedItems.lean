import Mathlib
import Reflection.Artifact.Cpp
import Reflection.Metadata.Attribute
import Reflection.Proofs.Metadata.Literal
import Reflection.Proofs.Scanning

namespace Reflection.Metadata

-- An identifier of ASCII letters, digits and underscores.
def IsIdentifier (key : List Char) : Prop :=
  ∃ first more, key = first :: more ∧ (first.isAlpha = true ∨ first = '_') ∧
    ∀ c ∈ more, Lexical.isWordPart c = true

def quotedItem (piece : Piece) : List Char :=
  piece.key.toList ++ '(' :: ((Cpp.quote piece.value).toList ++ [')'])

def quotedItems (pieces : List Piece) : List Char :=
  [',', ' '].intercalate (pieces.map quotedItem)

theorem quotedItem_append (piece : Piece) (rest : List Char) :
    quotedItem piece ++ rest = piece.key.toList ++
      '(' :: '"' :: (Literal.inner piece.value.toList ++ ')' :: rest) := by
  simp [quotedItem, Cpp.quote, Literal.quote, Literal.encode_eq_cons]

theorem quotedItems_cons_cons (piece next : Piece) (pieces : List Piece) :
    quotedItems (piece :: next :: pieces) =
      quotedItem piece ++ ',' :: ' ' :: quotedItems (next :: pieces) := by
  simp [quotedItems, List.intercalate]

theorem isBlank_of_word {c : Char} (h : c.isAlpha = true ∨ c = '_') :
    Lexical.isBlank c = false := by
  by_contra hblank
  have hmem : c ∈ [' ', '\t', '\r', '\n', '\x0c'] := by
    rw [Bool.not_eq_false] at hblank
    simpa [Lexical.isBlank, or_assoc] using hblank
  fin_cases hmem <;> simp at h

theorem lexeme_word {c : Char} (h : c.isAlpha = true ∨ c = '_') (rest : List Char) :
    Lexical.lexeme c rest = ⟨some .ident, (rest.takeWhile Lexical.isWordPart).length⟩ := by
  unfold Lexical.lexeme
  rw [isBlank_of_word h, if_neg (by decide), if_pos (by simpa using h)]

-- The tokens of an item.
structure QuotedTokens (piece : Piece) where
  name : Token
  opening : Token
  literal : Token
  closing : Token
  name_kind : name.kind = .ident
  name_text : name.text = piece.key.toList
  opening_kind : opening.kind = .lParen
  literal_kind : literal.kind = .string
  literal_text : literal.text = Literal.encode piece.value.toList
  closing_kind : closing.kind = .rParen

def QuotedTokens.before {piece : Piece} (tokens : QuotedTokens piece) (rest : List Token) :
    List Token := tokens.name :: tokens.opening :: tokens.literal :: tokens.closing :: rest

section Scan

open Lexical (lexeme isWordPart)

theorem takeWhile_word {more : List Char} (h : ∀ c ∈ more, isWordPart c = true)
    (rest : List Char) : (more ++ '(' :: rest).takeWhile isWordPart = more := by
  rw [takeWhile_append_stop (by decide), List.takeWhile_eq_self_iff]
  exact h

theorem scanFrom_quotedItem {piece : Piece} (hkey : IsIdentifier piece.key.toList) (start : Nat)
    (lead rest : List Char) :
    ∃ (tokens : QuotedTokens piece) (next : Nat),
      scanFrom lexeme .eof start lead (quotedItem piece ++ rest) =
        (scanFrom lexeme .eof next [] rest).behind (tokens.before []) := by
  obtain ⟨first, more, hname, hfirst, hmore⟩ := hkey
  have hword : lexeme first (more ++ '(' :: '"' ::
      (Literal.inner piece.value.toList ++ ')' :: rest)) = ⟨some .ident, more.length⟩ := by
    rw [lexeme_word hfirst, takeWhile_word hmore]
  have hopening (rest : List Char) : lexeme '(' rest = ⟨some .lParen, 0⟩ := rfl
  have hclosing (rest : List Char) : lexeme ')' rest = ⟨some .rParen, 0⟩ := rfl
  have hliteral := Literal.lexeme_inner piece.value.toList (')' :: rest)
  rw [quotedItem_append, hname, List.cons_append, scanFrom_whole hword,
    scanFrom_token (hopening _), List.take_zero, List.drop_zero, scanFrom_whole hliteral,
    scanFrom_token (hclosing _), List.take_zero, List.drop_zero]
  exact ⟨⟨_, _, _, _, rfl, hname.symm, rfl, rfl, rfl, rfl⟩, _, rfl⟩

-- The comma and the blank in front of an item.
theorem scanFrom_separator {first : Char} (h : first.isAlpha = true ∨ first = '_') (start : Nat)
    (more : List Char) :
    scanFrom lexeme .eof start [] (',' :: ' ' :: first :: more) =
      (scanFrom lexeme .eof (start + 1 + 1) [' '] (first :: more)).cons
        ⟨.comma, start, [], [',']⟩ := by
  have hcomma (rest : List Char) : lexeme ',' rest = ⟨some .comma, 0⟩ := rfl
  have hblank : lexeme ' ' (first :: more) = ⟨none, 0⟩ := by
    have hspace : lexeme ' ' (first :: more) =
        ⟨none, ((first :: more).takeWhile Lexical.isBlank).length⟩ := rfl
    rw [hspace, List.takeWhile_cons_of_neg (by simp [isBlank_of_word h])]
    rfl
  rw [scanFrom_token (hcomma _), List.take_zero, List.drop_zero, scanFrom_skip hblank,
    List.take_zero, List.drop_zero]
  rfl

theorem quotedItems_eq_cons {piece : Piece} (hkey : IsIdentifier piece.key.toList)
    (pieces : List Piece) :
    ∃ first more, quotedItems (piece :: pieces) = first :: more ∧
      (first.isAlpha = true ∨ first = '_') := by
  obtain ⟨first, more, hname, hfirst, _⟩ := hkey
  cases pieces with
  | nil => exact ⟨first, _, by simp [quotedItems, quotedItem, hname]; rfl, hfirst⟩
  | cons next pieces =>
      exact ⟨first, _, by rw [quotedItems_cons_cons, quotedItem, hname]; rfl, hfirst⟩

theorem quotedItems_eq_append (piece : Piece) (pieces : List Piece) :
    ∃ front, quotedItems (piece :: pieces) = front ++ [')'] := by
  induction pieces generalizing piece with
  | nil =>
      exact ⟨piece.key.toList ++ '(' :: (Cpp.quote piece.value).toList,
        by simp [quotedItems, quotedItem]⟩
  | cons next pieces ih =>
      obtain ⟨front, hfront⟩ := ih next
      exact ⟨quotedItem piece ++ ',' :: ' ' :: front, by simp [quotedItems_cons_cons, hfront]⟩

end Scan

section Read

open Attribute

variable {ending : Token} {piece : Piece}

theorem item_quoted (tokens : QuotedTokens piece) (rest : List Token) :
    item ending (tokens.before rest) = .ok ([piece], rest) := by
  have hkey : key ending (tokens.before rest) = .ok (piece.key.toList,
      tokens.opening :: tokens.literal :: tokens.closing :: rest) := by
    simp [key, QuotedTokens.before, kindAt, tokens.name_kind, tokens.name_text, expect, moreNames,
      tokens.opening_kind, bind, Except.bind]
  have hargument : argument ending tokens.opening piece.key
      (tokens.literal :: tokens.closing :: rest) = .ok ([piece], rest) := by
    simp [argument, kindAt, tokens.literal_kind, tokens.closing_kind, tokens.literal_text,
      Literal.decode_encode]
  rw [QuotedTokens.before] at hkey
  simp only [item, QuotedTokens.before, kindAt, tokens.name_kind, hkey, bind, Except.bind,
    tokens.opening_kind, if_true, String.ofList_toList, hargument]

theorem item_marker {name separator : Token} (hname : name.kind = .ident)
    (hseparator : separator.kind = .comma) (rest : List Token) :
    item ending (name :: separator :: rest) =
      .ok ([Piece.marker name.word], separator :: rest) := by
  have hkey : key ending (name :: separator :: rest) = .ok (name.text, separator :: rest) := by
    have hmore : moreNames (separator :: rest) = ([], separator :: rest) := by
      cases rest with
      | nil => rfl
      | cons token rest => rw [moreNames, if_neg (by simp [hseparator])]
    simp [key, kindAt, hname, expect, hmore, bind, Except.bind]
  simp [item, kindAt, hname, hkey, bind, Except.bind, hseparator, Token.word]

theorem items_of_last {tokens : List Token} {pieces : List Piece} (hne : tokens ≠ [])
    (h : item ending tokens = .ok (pieces, [])) : items ending tokens = .ok pieces := by
  rw [items, if_neg (by simpa using hne)]
  split
  · next herror => simp [h] at herror
  · next hok =>
    rw [h] at hok
    cases hok
    rfl

theorem items_of_comma {tokens more : List Token} {separator : Token} {pieces : List Piece}
    (hne : tokens ≠ []) (h : item ending tokens = .ok (pieces, separator :: more))
    (hseparator : separator.kind = .comma) :
    items ending tokens = (items ending more).map (pieces ++ ·) := by
  rw [items, if_neg (by simpa using hne)]
  split
  · next herror => simp [h] at herror
  · next hok =>
    rw [h] at hok
    cases hok
    exact if_pos hseparator

-- By induction on the pieces: each of them but the last has a comma behind it.
theorem items_quotedItems {pieces : List Piece} (hne : pieces ≠ [])
    (hkeys : ∀ piece ∈ pieces, IsIdentifier piece.key.toList) (start : Nat) (lead : List Char) :
    items ending (scanFrom Lexical.lexeme .eof start lead (quotedItems pieces)).items =
      .ok pieces := by
  induction pieces generalizing start lead with
  | nil => exact absurd rfl hne
  | cons piece pieces ih =>
      have hkey := hkeys piece List.mem_cons_self
      cases pieces with
      | nil =>
          obtain ⟨tokens, next, hscan⟩ := scanFrom_quotedItem hkey start lead []
          have hitems : quotedItems [piece] = quotedItem piece ++ [] := by simp [quotedItems]
          rw [hitems, hscan, scanFrom]
          exact items_of_last (by simp [Tokens.behind, QuotedTokens.before]) (item_quoted tokens [])
      | cons other pieces =>
          have hothers : ∀ piece ∈ other :: pieces, IsIdentifier piece.key.toList :=
            fun piece hmem => hkeys piece (List.mem_cons_of_mem _ hmem)
          obtain ⟨first, more, hcons, hfirst⟩ :=
            quotedItems_eq_cons (hothers other List.mem_cons_self) pieces
          obtain ⟨tokens, next, hscan⟩ := scanFrom_quotedItem hkey start lead
            (',' :: ' ' :: quotedItems (other :: pieces))
          rw [quotedItems_cons_cons, hscan, hcons, scanFrom_separator hfirst, ← hcons]
          have hrest := ih (by simp) hothers (next + 1 + 1) [' ']
          have hall := @items_of_comma ending
            (tokens.before (⟨.comma, next, [], [',']⟩ :: (scanFrom Lexical.lexeme .eof
              (next + 1 + 1) [' '] (quotedItems (other :: pieces))).items)) _ _ _
            (by simp [QuotedTokens.before]) (item_quoted tokens _) rfl
          rw [hrest] at hall
          exact hall

end Read

theorem text_isBlank_of_word {c : Char} (h : c.isAlpha = true ∨ c = '_') :
    Text.isBlank c = false := by
  by_contra hblank
  rw [Bool.not_eq_false] at hblank
  obtain hletter | rfl := h
  · have hcode : (65 ≤ c.toNat ∧ c.toNat ≤ 90) ∨ (97 ≤ c.toNat ∧ c.toNat ≤ 122) := by
      simpa [Char.isAlpha, Char.isUpper, Char.isLower, UInt32.le_iff_toNat_le] using hletter
    simp only [Text.isBlank, Text.blankRanges, List.any_cons, List.any_nil, Bool.or_false,
      Bool.or_eq_true, Bool.and_eq_true, decide_eq_true_eq] at hblank
    omega
  · exact absurd hblank (by decide)

-- Text that starts with a word and ends with an argument is not trimmed, and not `null`.
theorem trim_of_item {first : Char} {more front : List Char}
    (hfirst : first.isAlpha = true ∨ first = '_') (h : first :: more = front ++ [')']) :
    Text.trim (first :: more) = first :: more :=
  Text.trim_eq_self (text_isBlank_of_word hfirst) (by decide) h

theorem ofAttributeText_of_item {first : Char} {more front : List Char}
    (hfirst : first.isAlpha = true ∨ first = '_') (h : first :: more = front ++ [')']) :
    ofAttributeText (first :: more) =
      Attribute.items (scan (first :: more)).ending (scan (first :: more)).items := by
  have hnull : first :: more ≠ Piece.nullValue.toList := by
    rw [h]
    intro hnull
    have hlast := congrArg List.getLast? hnull
    rw [List.getLast?_concat] at hlast
    exact absurd hlast (by decide)
  unfold ofAttributeText
  dsimp only
  rw [trim_of_item hfirst h, if_neg (by simpa using hnull)]

-- Attribute text with quoted values has the keys and values it was written for.
theorem ofAttributeText_quotedItems {pieces : List Piece} (hne : pieces ≠ [])
    (hkeys : ∀ piece ∈ pieces, IsIdentifier piece.key.toList) :
    ofAttributeText (quotedItems pieces) = .ok pieces := by
  cases pieces with
  | nil => exact absurd rfl hne
  | cons piece pieces =>
      obtain ⟨first, more, hcons, hfirst⟩ :=
        quotedItems_eq_cons (hkeys piece List.mem_cons_self) pieces
      obtain ⟨front, hfront⟩ := quotedItems_eq_append piece pieces
      rw [hcons] at hfront
      rw [hcons, ofAttributeText_of_item hfirst hfront, ← hcons]
      exact items_quotedItems hne hkeys 0 []

-- The values behind the marker of reflected types.
def markedText (pieces : List Piece) : List Char := "refl, ".toList ++ quotedItems pieces

theorem ofAttributeText_markedText {pieces : List Piece} (hne : pieces ≠ [])
    (hkeys : ∀ piece ∈ pieces, IsIdentifier piece.key.toList) :
    ofAttributeText (Text.trim (markedText pieces)) = .ok (Piece.marker "refl" :: pieces) := by
  cases pieces with
  | nil => exact absurd rfl hne
  | cons piece pieces =>
      obtain ⟨first, more, hcons, hfirst⟩ :=
        quotedItems_eq_cons (hkeys piece List.mem_cons_self) pieces
      obtain ⟨front, hfront⟩ := quotedItems_eq_append piece pieces
      have htext : markedText (piece :: pieces) =
          'r' :: ("efl".toList ++ ',' :: ' ' :: quotedItems (piece :: pieces)) := rfl
      have hends : 'r' :: ("efl".toList ++ ',' :: ' ' :: quotedItems (piece :: pieces)) =
          ("refl, ".toList ++ front) ++ [')'] := by
        rw [hfront]
        rfl
      have hword (rest : List Char) : Lexical.lexeme 'r' ("efl".toList ++ ',' :: rest) =
          ⟨some .ident, "efl".toList.length⟩ := by cbv
      rw [htext, trim_of_item (.inl rfl) hends, ofAttributeText_of_item (.inl rfl) hends]
      generalize (scan _).ending = ending
      rw [scan, Reflection.scan, scanFrom_whole (hword _), hcons, scanFrom_separator hfirst,
        ← hcons]
      generalize hstart : 0 + Text.byteLength _ = start
      have hrest := @items_quotedItems ending _ hne hkeys (start + 1 + 1) [' ']
      simp only [Tokens.cons]
      rw [items_of_comma (by simp) (item_marker rfl rfl _) rfl, hrest]
      rfl

end Reflection.Metadata
