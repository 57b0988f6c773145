import Reflection.Proofs.Metadata.Lexemes
import Reflection.Proofs.Text

namespace Reflection.Metadata

open Attribute (kindAt isOpening isClosing closing)

def brackets : List (TokenKind × TokenKind) :=
  [(.lParen, .rParen), (.lBrace, .rBrace), (.lBracket, .rBracket)]

-- Brackets are closed in order, each by its own kind.
inductive Balanced : List Token → Prop where
  | nil : Balanced []
  | token {token : Token} {rest : List Token}
      (hbracket : ∀ pair ∈ brackets, token.kind ≠ pair.1 ∧ token.kind ≠ pair.2)
      (herror : token.kind ≠ .error) (hrest : Balanced rest) : Balanced (token :: rest)
  | group {opening close : Token} {inner rest : List Token}
      (hbrackets : (opening.kind, close.kind) ∈ brackets) (hinner : Balanced inner)
      (hrest : Balanced rest) : Balanced (opening :: (inner ++ close :: rest))

-- The text that tokens are written with, and what is skipped between them.
def source (tokens : List Token) : List Char := tokens.flatMap fun token => token.lead ++ token.text

-- Elements with commas between them. A comma may follow the last one.
inductive Separated (Element : List Token → List Piece → Prop) :
    List Token → List Piece → Prop where
  | nil : Separated Element [] []
  | last {tokens : List Token} {pieces : List Piece} (h : Element tokens pieces) :
      Separated Element tokens pieces
  | more {separator : Token} {tokens rest : List Token} {pieces others : List Piece}
      (h : Element tokens pieces) (hseparator : separator.kind = .comma)
      (hrest : Separated Element rest others) :
      Separated Element (tokens ++ separator :: rest) (pieces ++ others)

inductive Names : List Token → List Char → Prop where
  | one {name : Token} (hname : name.kind = .ident) : Names [name] name.text
  | more {name separator : Token} {rest : List Token} {others : List Char}
      (hname : name.kind = .ident) (hseparator : separator.kind = .colonColon)
      (hrest : Names rest others) :
      Names (name :: separator :: rest) (name.text ++ ':' :: ':' :: others)

inductive Key : List Token → List Char → Prop where
  | plain {tokens : List Token} {name : List Char} (h : Names tokens name) : Key tokens name
  | qualified {separator : Token} {tokens : List Token} {name : List Char}
      (hseparator : separator.kind = .colonColon) (h : Names tokens name) :
      Key (separator :: tokens) (':' :: ':' :: name)

-- The values of an object: strings are decoded, all others are kept as they are written.
inductive Value : List Token → List Char → Prop where
  | string {token : Token} {text : List Char} (h : token.kind = .string)
      (htext : Literal.StandsFor token.text text) : Value [token] text
  | plain {token : Token} (h : token.kind = .number ∨ token.kind = .ident) :
      Value [token] token.text
  | group {opening close : Token} {inner : List Token}
      (hopening : opening.kind = .lBrace ∨ opening.kind = .lBracket)
      (hbrackets : (opening.kind, close.kind) ∈ brackets) (hinner : Balanced inner) :
      Value (opening :: (inner ++ [close])) (opening.text ++ source (inner ++ [close]))

inductive ObjectKey : Token → List Char → Prop where
  | string {token : Token} {text : List Char} (h : token.kind = .string)
      (htext : Literal.StandsFor token.text text) : ObjectKey token text
  | ident {token : Token} (h : token.kind = .ident) : ObjectKey token token.text

inductive Entry : List Token → List Piece → Prop where
  | intro {token sign : Token} {tokens : List Token} {name text : List Char}
      (hname : ObjectKey token name) (hsign : sign.kind = .colon ∨ sign.kind = .eq)
      (hvalue : Value tokens text) :
      Entry (token :: sign :: tokens) [⟨String.ofList name, String.ofList text⟩]

-- One item of attribute text, and the pieces that it stands for.
inductive Item : List Token → List Piece → Prop where
  | marker {tokens : List Token} {name : List Char} (hkey : Key tokens name) :
      Item tokens [⟨String.ofList name, "null"⟩]
  | literal {opening literal close : Token} {tokens : List Token} {name text : List Char}
      (hkey : Key tokens name) (hopening : opening.kind = .lParen)
      (hliteral : literal.kind = .string) (htext : Literal.StandsFor literal.text text)
      (hclose : close.kind = .rParen) :
      Item (tokens ++ opening :: literal :: [close])
        [⟨String.ofList name, String.ofList text⟩]
  -- what is neither an object nor one literal is kept as it is written
  | raw {opening close : Token} {tokens inner : List Token} {name text : List Char}
      (hkey : Key tokens name) (hopening : opening.kind = .lParen) (hinner : Balanced inner)
      (hobject : ∀ first ∈ inner.head?, first.kind ≠ .lBrace)
      (hliteral : inner.map Token.kind ≠ [.string]) (hclose : close.kind = .rParen)
      (htext : Text.IsTrimmed (source inner ++ close.lead) text) :
      Item (tokens ++ opening :: (inner ++ [close])) [⟨String.ofList name, String.ofList text⟩]
  -- the entries of an object stand in place of the key
  | splice {opening brace closeBrace close : Token} {tokens entries : List Token}
      {name : List Char} {pieces : List Piece} (hkey : Key tokens name)
      (hopening : opening.kind = .lParen) (hbrace : brace.kind = .lBrace)
      (hentries : Separated Entry entries pieces) (hcloseBrace : closeBrace.kind = .rBrace)
      (hclose : close.kind = .rParen) :
      Item (tokens ++ opening :: brace :: (entries ++ closeBrace :: [close])) pieces
  | object {brace closeBrace : Token} {entries : List Token} {pieces : List Piece}
      (hbrace : brace.kind = .lBrace) (hentries : Separated Entry entries pieces)
      (hcloseBrace : closeBrace.kind = .rBrace) :
      Item (brace :: (entries ++ [closeBrace])) pieces

section Groups

open Attribute (rawArgument nestedValue)

variable {ending opening : Token}

@[simp] theorem source_nil : source [] = [] := rfl

@[simp] theorem source_cons (token : Token) (tokens : List Token) :
    source (token :: tokens) = token.spelled ++ source tokens := rfl

@[simp] theorem source_append (first second : List Token) :
    source (first ++ second) = source first ++ source second := List.flatMap_append

-- How the two tokens of a pair of brackets are told apart from others.
structure PairedBrackets (opening close : TokenKind) : Prop where
  opens : isOpening opening = true
  opening_ne_error : opening ≠ .error
  close_eq : close = closing opening
  not_opens : isOpening close = false
  closes : isClosing close = true
  close_ne_error : close ≠ .error

theorem pairedBrackets_of_mem {opening close : TokenKind} (h : (opening, close) ∈ brackets) :
    PairedBrackets opening close := by
  simp only [brackets, List.mem_cons, List.not_mem_nil, or_false, Prod.mk.injEq] at h
  obtain ⟨rfl, rfl⟩ | ⟨rfl, rfl⟩ | ⟨rfl, rfl⟩ := h <;> constructor <;> decide

theorem plain_of_notBracket {kind : TokenKind}
    (h : ∀ pair ∈ brackets, kind ≠ pair.1 ∧ kind ≠ pair.2) :
    isOpening kind = false ∧ isClosing kind = false := by
  cases kind <;> simp_all [brackets, isOpening, isClosing]

-- Balanced tokens leave the brackets around them open: they only add to the text.
theorem rawArgument_balanced {inner : List Token} (h : Balanced inner) {expected : List TokenKind}
    (hexpected : expected ≠ []) (text : List Char) (rest : List Token) :
    rawArgument ending opening expected text (inner ++ rest) =
      rawArgument ending opening expected (text ++ source inner) rest := by
  induction h generalizing expected text rest with
  | nil => simp
  | token hbracket herror _ ih =>
      obtain ⟨hopening, hclosing⟩ := plain_of_notBracket hbracket
      rw [List.cons_append, rawArgument, if_neg herror, if_neg (by simp [hopening]),
        if_neg (by simp [hclosing]), ih hexpected, source_cons, List.append_assoc]
  | @group first close inner others hbrackets _ _ ihinner ihrest =>
      have hpair := pairedBrackets_of_mem hbrackets
      rw [List.cons_append, rawArgument, if_neg hpair.opening_ne_error, if_pos hpair.opens,
        List.append_assoc, ihinner (List.cons_ne_nil _ _), List.cons_append, rawArgument,
        if_neg hpair.close_ne_error, if_neg (by simp [hpair.not_opens]), if_pos hpair.closes,
        if_neg (by simp [hpair.close_eq]), if_neg (by simpa using hexpected), List.tail_cons,
        ihrest hexpected]
      simp only [source_cons, source_append, List.append_assoc]

theorem nestedValue_balanced {inner : List Token} (h : Balanced inner) {depth : Nat}
    (hdepth : 0 < depth) (text : List Char) (rest : List Token) :
    nestedValue ending opening depth text (inner ++ rest) =
      nestedValue ending opening depth (text ++ source inner) rest := by
  induction h generalizing depth text rest with
  | nil => simp
  | token hbracket herror _ ih =>
      obtain ⟨hopening, hclosing⟩ := plain_of_notBracket hbracket
      rw [List.cons_append, nestedValue, if_neg herror, if_neg (by simp [hopening]),
        if_neg (by simp [hclosing]), ih hdepth, source_cons, List.append_assoc]
  | @group first close inner others hbrackets _ _ ihinner ihrest =>
      have hpair := pairedBrackets_of_mem hbrackets
      rw [List.cons_append, nestedValue, if_neg hpair.opening_ne_error, if_pos hpair.opens,
        List.append_assoc, ihinner (Nat.succ_pos depth), List.cons_append, nestedValue,
        if_neg hpair.close_ne_error, if_neg (by simp [hpair.not_opens]), if_pos hpair.closes,
        if_neg (by omega), Nat.succ_sub_one, ihrest hdepth]
      simp only [source_cons, source_append, List.append_assoc]

end Groups

section Objects

open Attribute (value objectKey entry object)

variable {ending : Token}

theorem value_complete {tokens : List Token} {text : List Char} (h : Value tokens text)
    (rest : List Token) : value ending (tokens ++ rest) = .ok (text, rest) := by
  cases h with
  | string h htext => simp [value, h, htext.decode_eq]
  | plain h => obtain h | h := h <;> simp [value, h]
  | @group opening close inner hopening hbrackets hinner =>
      have hpair := pairedBrackets_of_mem hbrackets
      have hnested : value ending (opening :: (inner ++ [close] ++ rest)) =
          Attribute.nestedValue ending opening 1 opening.text (inner ++ [close] ++ rest) := by
        obtain h | h := hopening <;> simp [value, h]
      rw [List.cons_append, hnested, List.append_assoc, nestedValue_balanced hinner Nat.one_pos,
        List.singleton_append, Attribute.nestedValue, if_neg hpair.close_ne_error,
        if_neg (by simp [hpair.not_opens]), if_pos hpair.closes, if_pos le_rfl, source_append,
        List.append_assoc, source_cons, source_nil, List.append_nil]

theorem objectKey_complete {token : Token} {name : List Char} (h : ObjectKey token name)
    (rest : List Token) : objectKey ending (token :: rest) = .ok (name, rest) := by
  cases h with
  | string h htext => simp [objectKey, h, htext.decode_eq]
  | ident h => simp [objectKey, h]

theorem entry_complete {tokens : List Token} {pieces : List Piece} (h : Entry tokens pieces)
    (rest : List Token) :
    ∃ piece, pieces = [piece] ∧ kindAt (tokens ++ rest) ≠ .rBrace ∧
      entry ending (tokens ++ rest) = .ok (piece, rest) := by
  cases h with
  | @intro token sign tokens name text hname hsign hvalue =>
      refine ⟨_, rfl, ?_, ?_⟩
      · cases hname with
        | string h _ => simp [kindAt, h]
        | ident h => simp [kindAt, h]
      · simp [entry, objectKey_complete hname, value_complete hvalue, hsign, bind, Except.bind]

-- Behind an entry, a comma or the closing brace decides how an object goes on.
theorem object_of_entry {tokens after : List Token} {piece : Piece}
    (hkind : kindAt tokens ≠ .rBrace) (hentry : entry ending tokens = .ok (piece, after)) :
    object ending tokens =
      match kindAt after with
      | .comma => (object ending after.tail).map fun read => (piece :: read.1, read.2)
      | .rBrace => .ok ([piece], after.tail)
      | _ => .error (Attribute.unexpected ending .commaOrBrace after) := by
  rw [object, if_neg hkind]
  split
  · next herror =>
    rw [hentry] at herror
    cases herror
  · next hok =>
    rw [hentry] at hok
    cases hok
    rfl

theorem object_complete {entries : List Token} {pieces : List Piece}
    (h : Separated Entry entries pieces) {close : Token} (hclose : close.kind = .rBrace)
    (rest : List Token) : object ending (entries ++ close :: rest) = .ok (pieces, rest) := by
  induction h with
  | nil => rw [List.nil_append, object, if_pos (by simp [kindAt, hclose]), List.tail_cons]
  | @last tokens pieces h =>
      obtain ⟨piece, rfl, hkind, hentry⟩ := entry_complete h (close :: rest)
      rw [object_of_entry hkind hentry]
      simp [kindAt, hclose]
  | @more separator tokens others pieces more h hseparator _ ih =>
      obtain ⟨piece, rfl, hkind, hentry⟩ :=
        entry_complete h (separator :: (others ++ close :: rest))
      rw [List.append_assoc, List.cons_append, object_of_entry hkind hentry]
      simp [kindAt, hseparator, ih, Except.map]

end Objects

section Items

open Attribute (expect moreNames key argument rawArgument item items)

variable {ending : Token}

theorem moreNames_stop {rest : List Token} (h : kindAt rest ≠ .colonColon) :
    moreNames rest = ([], rest) := by
  match rest with
  | [] => rfl
  | [_] => rfl
  | separator :: name :: rest => exact if_neg fun hsame => h hsame.1

-- The first name is read by itself, and the others behind it.
theorem Names.exists_cons {tokens : List Token} {name : List Char} (h : Names tokens name)
    {rest : List Token} (hrest : kindAt rest ≠ .colonColon) :
    ∃ first more others, tokens = first :: more ∧ first.kind = .ident ∧
      name = first.text ++ others ∧ moreNames (more ++ rest) = (others, rest) := by
  induction h with
  | @one token hname =>
      exact ⟨token, [], [], rfl, hname, (List.append_nil _).symm, moreNames_stop hrest⟩
  | @more token separator tokens name hname hseparator _ ih =>
      obtain ⟨first, more, others, rfl, hfirst, rfl, hmore⟩ := ih
      refine ⟨token, _, _, rfl, hname, rfl, ?_⟩
      rw [List.cons_append, List.cons_append, moreNames, if_pos ⟨hseparator, hfirst⟩, hmore]
      rfl

theorem key_complete {tokens : List Token} {name : List Char} (h : Key tokens name)
    {rest : List Token} (hrest : kindAt rest ≠ .colonColon) :
    key ending (tokens ++ rest) = .ok (name, rest) ∧
      (kindAt (tokens ++ rest) = .ident ∨ kindAt (tokens ++ rest) = .colonColon) := by
  cases h with
  | plain h =>
      obtain ⟨first, more, others, rfl, hfirst, rfl, hmore⟩ := h.exists_cons hrest
      refine ⟨?_, .inl hfirst⟩
      simp [key, kindAt, hfirst, expect, hmore, bind, Except.bind]
  | qualified hseparator h =>
      obtain ⟨first, more, others, rfl, hfirst, rfl, hmore⟩ := h.exists_cons hrest
      refine ⟨?_, .inr hseparator⟩
      simp [key, kindAt, hseparator, hfirst, expect, hmore, bind, Except.bind]

theorem item_of_argument {tokens : List Token} {name : List Char} (h : Key tokens name)
    {opening : Token} (hopening : opening.kind = .lParen) (rest : List Token) :
    item ending (tokens ++ opening :: rest) =
      argument ending opening (String.ofList name) rest := by
  obtain ⟨hkey, hkind⟩ := @key_complete ending _ _ h (opening :: rest) (by simp [kindAt, hopening])
  obtain hkind | hkind := hkind <;> simp [item, hkind, hkey, hopening, bind, Except.bind]

theorem item_of_marker {tokens : List Token} {name : List Char} (h : Key tokens name)
    {rest : List Token} (hrest : rest = [] ∨ kindAt rest = .comma) :
    item ending (tokens ++ rest) = .ok ([Piece.marker (String.ofList name)], rest) := by
  have hstop : kindAt rest ≠ .colonColon := by
    obtain rfl | hcomma := hrest
    · simp [kindAt]
    · simp [hcomma]
  obtain ⟨hkey, hkind⟩ := @key_complete ending _ _ h rest hstop
  cases rest with
  | nil =>
      rw [List.append_nil] at hkey hkind ⊢
      obtain hkind | hkind := hkind <;> simp [item, hkind, hkey, bind, Except.bind]
  | cons separator rest =>
      have hcomma : separator.kind = .comma := by simpa [kindAt] using hrest
      obtain hkind | hkind := hkind <;> simp [item, hkind, hkey, hcomma, bind, Except.bind]

theorem rawArgument_closed {inner : List Token} (hinner : Balanced inner) {opening close : Token}
    (hclose : close.kind = .rParen) (rest : List Token) :
    rawArgument ending opening [.rParen] [] (inner ++ close :: rest) =
      .ok (Text.trim (source inner ++ close.lead), rest) := by
  rw [rawArgument_balanced hinner (List.cons_ne_nil _ _), rawArgument]
  simp [hclose, isOpening, isClosing]

-- Only a lone literal has the closing parenthesis behind it.
theorem not_lone_literal {first close : Token} {inner : List Token}
    (hinner : Balanced (first :: inner)) (hliteral : (first :: inner).map Token.kind ≠ [.string])
    (rest : List Token) :
    ¬(first.kind = .string ∧ kindAt (inner ++ close :: rest) = .rParen) := by
  rintro ⟨hfirst, hclose⟩
  generalize htokens : first :: inner = tokens at hinner
  cases hinner with
  | nil => cases htokens
  | group hbrackets _ _ =>
      obtain ⟨rfl, -⟩ := List.cons.inj htokens
      simp [hfirst, brackets] at hbrackets
  | token _ _ hrest =>
      obtain ⟨-, rfl⟩ := List.cons.inj htokens
      cases hrest with
      | nil => exact hliteral (by simp [hfirst])
      | token hbracket _ _ =>
          simp only [List.cons_append, kindAt] at hclose
          simp [hclose, brackets] at hbracket
      | group hbrackets _ _ =>
          simp only [List.cons_append, kindAt] at hclose
          simp [hclose, brackets] at hbrackets

theorem argument_raw {inner : List Token} (hinner : Balanced inner)
    (hobject : ∀ first ∈ inner.head?, first.kind ≠ .lBrace)
    (hliteral : inner.map Token.kind ≠ [.string]) {opening close : Token}
    (hclose : close.kind = .rParen) (name : String) (rest : List Token) :
    argument ending opening name (inner ++ close :: rest) =
      .ok ([⟨name, String.ofList (Text.trim (source inner ++ close.lead))⟩], rest) := by
  have hraw := @rawArgument_closed ending _ hinner opening _ hclose rest
  cases inner with
  | nil =>
      rw [List.nil_append] at hraw ⊢
      rw [argument, if_neg (by simp [hclose]), if_neg (by simp [hclose]), hraw]
      rfl
  | cons first inner =>
      rw [List.cons_append] at hraw ⊢
      rw [argument, if_neg (hobject first rfl),
        if_neg (not_lone_literal hinner hliteral rest), hraw]
      rfl

-- An item is read to its end if a comma or nothing follows it.
theorem item_complete {tokens : List Token} {pieces : List Piece} (h : Item tokens pieces)
    {rest : List Token} (hrest : rest = [] ∨ kindAt rest = .comma) :
    item ending (tokens ++ rest) = .ok (pieces, rest) := by
  cases h with
  | marker hkey => exact item_of_marker hkey hrest
  | literal hkey hopening hliteral htext hclose =>
      rw [List.append_assoc, List.cons_append, item_of_argument hkey hopening]
      simp [argument, kindAt, hliteral, hclose, htext.decode_eq]
  | raw hkey hopening hinner hobject hliteral hclose htext =>
      rw [List.append_assoc, List.cons_append, item_of_argument hkey hopening, List.append_assoc,
        List.singleton_append, ← Text.isTrimmed_iff.mp htext]
      exact argument_raw hinner hobject hliteral hclose _ rest
  | splice hkey hopening hbrace hentries hcloseBrace hclose =>
      rw [List.append_assoc, List.cons_append, item_of_argument hkey hopening, List.cons_append,
        List.append_assoc, List.cons_append]
      simp [argument, hbrace, object_complete hentries hcloseBrace, expect, hclose, bind,
        Except.bind]
  | object hbrace hentries hcloseBrace =>
      rw [List.cons_append, List.append_assoc, List.singleton_append]
      simp [item, kindAt, hbrace, object_complete hentries hcloseBrace]

theorem Key.ne_nil {tokens : List Token} {name : List Char} (h : Key tokens name) :
    tokens ≠ [] := by
  cases h with
  | plain h => cases h <;> simp
  | qualified => simp

theorem Item.ne_nil {tokens : List Token} {pieces : List Piece} (h : Item tokens pieces) :
    tokens ≠ [] := by
  cases h with
  | marker hkey => exact hkey.ne_nil
  | object => simp
  | _ => simp

theorem items_complete {tokens : List Token} {pieces : List Piece}
    (h : Separated Item tokens pieces) : items ending tokens = .ok pieces := by
  induction h with
  | nil => rw [items, if_pos List.isEmpty_nil]
  | @last tokens pieces h =>
      have hitem := @item_complete ending _ _ h [] (.inl rfl)
      rw [List.append_nil] at hitem
      exact items_of_last h.ne_nil hitem
  | @more separator tokens rest pieces others h hseparator _ ih =>
      have hitem := @item_complete ending _ _ h (separator :: rest) (.inr hseparator)
      rw [items_of_comma (by simp) hitem hseparator, ih]
      rfl

end Items

theorem trim_ne_nil {c : Char} {text : List Char} (hmem : c ∈ text)
    (hc : Text.isBlank c = false) : Text.trim text ≠ [] := by
  intro hnil
  obtain ⟨front, behind, rfl, hblanks, -⟩ := Text.isTrimmed_iff.mpr hnil
  rw [List.nil_append] at hmem
  exact Bool.false_ne_true (hc.symm.trans (hblanks c hmem))

-- A text with tokens in it does not trim to nothing.
theorem Written.trim_ne_nil {start : Nat} {token : Token} {tokens : List Token} {text : List Char}
    (h : Written start (token :: tokens) text) : Text.trim text ≠ [] := by
  cases h with
  | cons _ hspelled _ _ =>
      obtain ⟨c, more, rfl, hvisible⟩ := hspelled.exists_cons
      exact Metadata.trim_ne_nil (by simp) hvisible.not_text_blank

-- The tokens that a text is written with are the ones that are read.
theorem ofAttributeText_written {text : List Char} {tokens : List Token} {pieces : List Piece}
    (hwritten : Written 0 tokens text)
    (hall : ∀ ending, Attribute.items ending tokens = .ok pieces)
    (hnull : Text.trim text ≠ Piece.nullValue.toList) : ofAttributeText text = .ok pieces := by
  by_cases htrim : Text.trim text = []
  · have hnil : tokens = [] := by
      cases tokens with
      | nil => rfl
      | cons token tokens => exact absurd htrim hwritten.trim_ne_nil
    subst hnil
    have hempty := hall (scan text).ending
    rw [Attribute.items, if_pos List.isEmpty_nil] at hempty
    rw [ofAttributeText, htrim, hempty]
    rfl
  · have htokens : (scan text).items = tokens := hwritten.items
    unfold ofAttributeText
    dsimp only
    rw [if_neg (by simp [htrim, hnull]), htokens, hall]

theorem Written.spelled {start : Nat} {tokens : List Token} {text : List Char}
    (h : Written start tokens text) : ∀ token ∈ tokens, Spelled token.kind token.text := by
  induction h with
  | nil => exact List.forall_mem_nil _
  | cons _ hspelled _ _ ih => exact List.forall_mem_cons.mpr ⟨hspelled, ih⟩

theorem Spelled.existsUnique_standsFor {literal : List Char} (h : Spelled .string literal) :
    ∃! text, Literal.StandsFor literal text := by
  cases h with
  | symbol h => simp [symbols] at h
  | @string body _ => exact Literal.existsUnique_standsFor body

-- Every literal of attribute text stands for one text, and a text that the grammar derives has the
-- pieces of its derivation.
theorem ofAttributeText_derived {text : List Char} {tokens : List Token}
    (hwritten : Written 0 tokens text) :
    (∀ token ∈ tokens, token.kind = .string → ∃! decoded, Literal.StandsFor token.text decoded) ∧
      ∀ pieces, Separated Item tokens pieces → ¬Text.IsTrimmed text "null".toList →
        ofAttributeText text = .ok pieces := by
  refine ⟨fun token hmem hkind => ?_, fun pieces hitems hnull => ?_⟩
  · have hspelled := hwritten.spelled token hmem
    rw [hkind] at hspelled
    exact hspelled.existsUnique_standsFor
  · exact ofAttributeText_written hwritten (fun _ => items_complete hitems)
      (mt Text.isTrimmed_iff.mpr hnull)

theorem ofAttributeText_derived_groups :
    ofAttributeText "::a, b([\"]\"] ), \x7bc: \"\\x4a-\\101\\n\",\x7d,".toList =
      .ok [⟨"::a", "null"⟩, ⟨"b", "[\"]\"]"⟩, ⟨"c", "J-A\n"⟩] := by
  have hmarker := @Item.marker [⟨.colonColon, 0, [], [':', ':']⟩, ⟨.ident, 2, [], ['a']⟩] _
    (.qualified rfl (.one rfl))
  have hraw := @Item.raw ⟨.lParen, 6, [], ['(']⟩ ⟨.rParen, 13, [' '], [')']⟩
    [⟨.ident, 5, [' '], ['b']⟩] _ _ _ (.plain (.one rfl)) rfl
    (@Balanced.group ⟨.lBracket, 7, [], ['[']⟩ ⟨.rBracket, 11, [], [']']⟩
      [⟨.string, 8, [], ['"', ']', '"']⟩] [] (by decide) (.token (by decide) (by decide) .nil) .nil)
    (by rintro first ⟨rfl⟩; decide) (by decide) rfl
    (Text.isTrimmed_trim _)
  -- `\x4a` up to the sign behind it, `\101` with its three digits, and a letter
  have hletter : Literal.Decoded ['\\', 'n'] ['\n'] := .control (by decide) .nil
  have hoctal : Literal.Decoded ['\\', '1', '0', '1', '\\', 'n'] ['A', '\n'] :=
    @Literal.Decoded.octal ['1', '0', '1'] _ _ [1, 0, 1] _
      (.cons ⟨by decide, .inl rfl⟩ (.cons ⟨by decide, .inl rfl⟩ (.cons ⟨by decide, .inl rfl⟩ .nil)))
      (by decide) (.inr rfl) (by decide) hletter
  have hstop : Literal.NoDigit 16 ['-', '\\', '1', '0', '1', '\\', 'n'] := by
    rintro c ⟨rfl⟩ value hvalue
    exact absurd (Literal.isHex_of_digit hvalue) (by decide)
  have hstands : Literal.StandsFor "\"\\x4a-\\101\\n\"".toList ['J', '-', 'A', '\n'] :=
    ⟨"\\x4a-\\101\\n".toList, rfl, @Literal.Decoded.hex ['4', 'a'] _ _ [4, 10] _
      (.cons ⟨by decide, .inl rfl⟩ (.cons ⟨by decide, .inl rfl⟩ .nil)) (by decide) hstop
      (by decide) (.plain (by decide) hoctal)⟩
  have hentry := @Entry.intro ⟨.ident, 17, [], ['c']⟩ ⟨.colon, 18, [], [':']⟩
    [⟨.string, 20, [' '], "\"\\x4a-\\101\\n\"".toList⟩] _ _ (.ident rfl) (.inl rfl)
    (.string rfl hstands)
  have hobject := @Item.object ⟨.lBrace, 16, [' '], ['{']⟩ ⟨.rBrace, 34, [], ['}']⟩ _ _ rfl
    (@Separated.more _ ⟨.comma, 33, [], [',']⟩ _ _ _ _ hentry rfl .nil) rfl
  have hitems := @Separated.more _ ⟨.comma, 3, [], [',']⟩ _ _ _ _ hmarker rfl
    (@Separated.more _ ⟨.comma, 14, [], [',']⟩ _ _ _ _ hraw rfl
      (@Separated.more _ ⟨.comma, 35, [], [',']⟩ _ _ _ _ hobject rfl .nil))
  obtain ⟨tokens, pieces, hitems, hscan, hpieces⟩ : ∃ tokens pieces,
      Separated Item tokens pieces ∧
        (scan "::a, b([\"]\"] ), \x7bc: \"\\x4a-\\101\\n\",\x7d,".toList).items = tokens ∧
        pieces = [⟨"::a", "null"⟩, ⟨"b", "[\"]\"]"⟩, ⟨"c", "J-A\n"⟩] :=
    ⟨_, _, hitems, by cbv, by cbv⟩
  subst hpieces
  have hkinds : (scan "::a, b([\"]\"] ), \x7bc: \"\\x4a-\\101\\n\",\x7d,".toList).items.all
      (·.kind ≠ .error) = true := by cbv
  have hwritten := written_scan (by simpa using hkinds)
  exact (ofAttributeText_derived hwritten).2 _ (hscan ▸ hitems)
    fun hnull => absurd (Text.isTrimmed_iff.mp hnull) (by decide)

end Reflection.Metadata
