import Reflection.Proofs.Metadata.SteadyReaders

namespace Reflection.Metadata

open Attribute

section Items

variable {ending : Token} {tokens : List Token} {pieces : List Piece}

theorem ItemsRead.sound (h : ItemsRead ending tokens pieces) :
    ∀ token ∈ tokens, token.kind ≠ .error := by
  induction h with
  | nil => simp
  | last hitem =>
      exact fun token hmem herror =>
        List.not_mem_nil ((steady_item hitem).sound token hmem herror)
  | more hitem hseparator _ ih =>
      intro token hmem herror
      obtain rfl | hrest := List.mem_cons.mp ((steady_item hitem).sound token hmem herror)
      · simp [hseparator] at herror
      · exact ih token hrest herror

-- The last of the tokens is there, and it is not a comma.
def EndsOpen (tokens : List Token) : Prop := ∃ last ∈ tokens.getLast?, last.kind ≠ .comma

theorem EndsOpen.of_comma {taken rest : List Token} {separator : Token}
    (h : EndsOpen (taken ++ separator :: rest)) (hseparator : separator.kind = .comma) :
    EndsOpen rest := by
  obtain ⟨last, hlast, hkind⟩ := h
  cases rest with
  | nil =>
      rw [List.getLast?_concat, Option.mem_some_iff] at hlast
      exact absurd (hlast ▸ hseparator) hkind
  | cons first rest =>
      exact ⟨last, by simpa using hlast, hkind⟩

theorem placed_ne_nil {distance : Nat} {behind rest : List Token}
    (h : item ending (placed distance behind tokens) = .ok (pieces, rest)) :
    placed distance behind tokens ≠ [] := by
  intro hnil
  rw [hnil] at h
  cases h

-- By induction on the items: reading goes on behind the comma that stands behind the last one.
theorem ItemsRead.again (h : ItemsRead ending tokens pieces) (other : Token) (distance : Nat)
    {behind : List Token} (hbehind : EndsItem behind) (hopen : behind ≠ [] → EndsOpen tokens) :
    items other (placed distance behind tokens) =
      (items other behind.tail).map (pieces ++ ·) := by
  induction h with
  | nil =>
      cases behind with
      | nil => exact items_nil.trans (by rw [List.tail_nil, items_nil]; rfl)
      | cons comma more =>
          obtain ⟨last, hlast, -⟩ := hopen (List.cons_ne_nil _ _)
          cases hlast
  | @last tokens pieces hitem =>
      have hsame := (steady_item hitem).again other distance behind hbehind
      cases behind with
      | nil =>
          rw [items_of_last (placed_ne_nil hsame) hsame, List.tail_nil, items_nil]
          exact congrArg _ (List.append_nil _).symm
      | cons comma more =>
          have hcomma : comma.kind = .comma := hbehind.resolve_left (List.cons_ne_nil _ _)
          exact items_of_comma (placed_ne_nil hsame) hsame hcomma
  | @more separator tokens rest pieces others hitem hseparator _ ih =>
      have hsame := (steady_item hitem).again other distance behind hbehind
      have hrest : behind ≠ [] → EndsOpen rest := by
        obtain ⟨taken, rfl, -⟩ := nested_of_item hitem
        exact fun hbehind => (hopen hbehind).of_comma hseparator
      rw [placed_cons] at hsame
      rw [items_of_comma (placed_ne_nil hsame) hsame hseparator, ih hrest]
      cases items other behind.tail with
      | error _ => rfl
      | ok found => exact congrArg _ (List.append_assoc _ _ _).symm

end Items

section Texts

variable {start : Nat} {tokens more : List Token} {text rest : List Char}

theorem Written.moved (h : Written start tokens text) (distance : Nat) :
    Written (start + distance) (tokens.map (Token.moved distance)) text := by
  induction h with
  | nil hblanks => exact .nil hblanks
  | @cons start kind lead text rest tokens hlead hspelled hend _ ih =>
      rw [Nat.add_right_comm _ _ distance, Nat.add_right_comm start] at ih
      rw [List.map_cons, Token.moved, Nat.add_right_comm start]
      exact .cons hlead hspelled hend ih

theorem goesOn_comma (kind : TokenKind) (text : List Char) : goesOn kind text ',' = false := by
  cases kind <;> simp [goesOn] <;> decide

-- A comma behind a text is a token of its own.
theorem Written.comma (h : Written start tokens text)
    (hrest : Written (start + Text.byteLength text + 1) more rest) :
    ∃ separator : Token, separator.kind = .comma ∧
      Written start (tokens ++ separator :: more) (text ++ ',' :: rest) := by
  induction h with
  | nil hblanks =>
      have hspelled : Spelled .comma [','] := .symbol (by simp [symbols])
      exact ⟨_, rfl, .cons hblanks hspelled (any_goesOn_false rfl _) hrest⟩
  | @cons start kind lead text others tokens hlead hspelled hend _ ih =>
      rw [Text.byteLength_append, Text.byteLength_append, ← Nat.add_assoc, ← Nat.add_assoc] at hrest
      obtain ⟨separator, hkind, hwritten⟩ := ih hrest
      refine ⟨separator, hkind, ?_⟩
      rw [List.append_assoc, List.append_assoc]
      refine .cons hlead hspelled ?_ hwritten
      cases others with
      | nil => simp [goesOn_comma]
      | cons c others => exact hend

-- Only blanks stand behind the last token.
theorem Written.last (h : Written start tokens text) {last : Token}
    (hlast : last ∈ tokens.getLast?) :
    ∃ front blanks, text = front ++ last.text ++ blanks ∧ Spelled last.kind last.text ∧
      ∀ c ∈ blanks, Lexical.isBlank c = true := by
  induction h with
  | nil => cases hlast
  | @cons start kind lead text others tokens hlead hspelled _ hrest ih =>
      cases hrest with
      | nil hblanks =>
          cases hlast
          exact ⟨lead, others, by simp, hspelled, hblanks⟩
      | cons =>
          obtain ⟨front, blanks, hothers, hlast⟩ := ih hlast
          exact ⟨lead ++ text ++ front, blanks, by rw [hothers]; simp, hlast⟩

-- Is a comma the last character of the text that is not blank?
def EndsInComma (text : List Char) : Prop := (Text.trimEnd text).getLast? = some ','

instance (text : List Char) : Decidable (EndsInComma text) :=
  inferInstanceAs (Decidable (_ = _))

theorem text_isBlank_of_isBlank {c : Char} (h : Lexical.isBlank c = true) :
    Text.isBlank c = true := by
  rw [isBlank_iff] at h
  fin_cases h <;> decide

theorem endsInComma_append {front blanks : List Char}
    (hblanks : ∀ c ∈ blanks, Lexical.isBlank c = true) : EndsInComma (front ++ [','] ++ blanks) := by
  have hdrop : blanks.reverse.dropWhile Text.isBlank = [] := by
    rw [List.dropWhile_eq_nil_iff]
    exact fun c hc => text_isBlank_of_isBlank (hblanks c (List.mem_reverse.mp hc))
  have hcomma : Text.isBlank ',' = false := by decide
  rw [EndsInComma, Text.trimEnd, List.reverse_append, List.dropWhile_append, hdrop]
  simp [hcomma]

theorem trim_of_blanks (h : ∀ c ∈ text, Lexical.isBlank c = true) : Text.trim text = [] := by
  have hstart : Text.trimStart text = [] := by
    rw [Text.trimStart, List.dropWhile_eq_nil_iff]
    exact fun c hc => text_isBlank_of_isBlank (h c hc)
  rw [Text.trim, hstart]
  rfl

theorem Written.endsOpen (h : Written start tokens text) (hblank : Text.trim text ≠ [])
    (hcomma : ¬EndsInComma text) : EndsOpen tokens := by
  cases hlast : tokens.getLast? with
  | none =>
      rw [List.getLast?_eq_none_iff] at hlast
      subst hlast
      cases h with
      | nil hblanks => exact absurd (trim_of_blanks hblanks) hblank
  | some last =>
      obtain ⟨front, blanks, rfl, hspelled, hblanks⟩ := h.last hlast
      refine ⟨last, hlast, fun hkind => hcomma ?_⟩
      have htext : last.text = [','] := by
        rw [hkind] at hspelled
        generalize last.text = text at hspelled
        cases hspelled with
        | symbol hmem => simpa [symbols] using hmem
      rw [htext]
      exact endsInComma_append hblanks

theorem itemsRead_scan {pieces : List Piece} (h : ofAttributeText text = .ok pieces)
    (hblank : Text.trim text ≠ []) (hnull : Text.trim text ≠ Piece.nullValue.toList) :
    ItemsRead (scan text).ending (scan text).items pieces := by
  unfold ofAttributeText at h
  dsimp only at h
  rw [if_neg (by simp [hblank, hnull])] at h
  exact itemsRead_of_items h

def joined (texts : List (List Char)) : List Char := [','].intercalate texts

theorem joined_cons_cons (text next : List Char) (texts : List (List Char)) :
    joined (text :: next :: texts) = text ++ ',' :: joined (next :: texts) := by
  simp [joined, List.intercalate]

-- A text with the pieces that are read of its items.
structure HasItems (text : List Char) (pieces : List Piece) : Prop where
  read : ofAttributeText text = .ok pieces
  not_blank : Text.trim text ≠ []
  not_null : Text.trim text ≠ Piece.nullValue.toList

-- By induction on the texts: the tokens of the others stand behind those of the first one.
theorem written_joined {texts : List (List Char)} {found : List (List Piece)}
    (h : List.Forall₂ HasItems texts found) (hne : texts ≠ [])
    (hcomma : ∀ text ∈ texts.dropLast, ¬EndsInComma text) (start : Nat) :
    ∃ tokens, Written start tokens (joined texts) ∧
      ∀ ending, items ending tokens = .ok found.flatten := by
  induction h generalizing start with
  | nil => exact absurd rfl hne
  | @cons text pieces texts found hfirst hothers ih =>
      have hread := itemsRead_scan hfirst.read hfirst.not_blank hfirst.not_null
      have hwritten := written_scan hread.sound
      have hmoved := hwritten.moved start
      rw [Nat.zero_add] at hmoved
      cases hothers with
      | nil =>
          refine ⟨_, by simpa [joined] using hmoved, fun ending => ?_⟩
          have hitems := @ItemsRead.again _ _ _ hread ending start [] (.inl rfl) (absurd rfl)
          rw [placed, List.append_nil, List.tail_nil, items_nil] at hitems
          exact hitems
      | @cons next _ texts others hnext hothers =>
          have hlast : EndsOpen (scan text).items :=
            hwritten.endsOpen hfirst.not_blank (hcomma text (by simp))
          have hrest : ∀ text ∈ (next :: texts).dropLast, ¬EndsInComma text :=
            fun text hmem => hcomma text (by simp [hmem])
          obtain ⟨more, hmore, hitems⟩ := ih (by simp) hrest (start + Text.byteLength text + 1)
          obtain ⟨separator, hkind, hall⟩ := hmoved.comma hmore
          rw [← joined_cons_cons] at hall
          refine ⟨_, hall, fun ending => ?_⟩
          have hsame := @ItemsRead.again _ _ _ hread ending start (separator :: more) (.inr hkind)
            fun _ => hlast
          rw [List.tail_cons, hitems] at hsame
          exact hsame

-- The pieces of joined texts.
theorem ofAttributeText_joined {texts : List (List Char)} {found : List (List Piece)}
    (h : List.Forall₂ HasItems texts found)
    (hcomma : ∀ text ∈ texts.dropLast, ¬EndsInComma text) :
    ofAttributeText (joined texts) = .ok found.flatten := by
  cases h with
  | nil => rfl
  | @cons text pieces texts found hfirst hothers =>
      obtain ⟨tokens, hwritten, hitems⟩ := written_joined (.cons hfirst hothers) (by simp) hcomma 0
      refine ofAttributeText_written hwritten hitems ?_
      cases hothers with
      | nil => simpa [joined] using hfirst.not_null
      | @cons next _ texts =>
          intro hnull
          have hcomma : ',' ∈ joined (text :: next :: texts) := by simp [joined_cons_cons]
          have hmem := (mem_trim hcomma).resolve_left (by decide)
          rw [hnull] at hmem
          exact absurd hmem (by decide)

end Texts

end Reflection.Metadata
