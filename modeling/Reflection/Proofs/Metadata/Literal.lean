import Reflection.Header.Token
import Reflection.Metadata.Token
import Reflection.Proofs.Metadata.Escapes

namespace Reflection.Metadata.Literal

-- The characters that stand for themselves between quotes.
def isPlain (c : Char) : Bool :=
  c ≠ '"' && c ≠ '\\' && c ≠ '\n' && c ≠ '\t' && c ≠ '\r' && 0x20 ≤ c.toNat && c.toNat ≠ 0x7f

-- A character is written as itself, as a backslash and a character, or as an octal escape.
inductive Encoded (c : Char) : List Char → Prop where
  | plain (h : isPlain c = true) : Encoded c [c]
  | pair {letter : Char} (hletter : letter ≠ '\n')
      (hstands : (letter, c) ∈ controls ∨ letter = c ∧ c ∈ ['"', '\\']) :
      Encoded c ['\\', letter]
  | octal {first second third : Nat} (hfirst : first < 8) (hsecond : second < 8)
      (hthird : third < 8) (hcode : first * 64 + second * 8 + third = c.toNat) :
      Encoded c ['\\', Nat.digitChar first, Nat.digitChar second, Nat.digitChar third]

theorem encoded_encodeChar (c : Char) : Encoded c (encodeChar c) := by
  unfold encodeChar
  split
  · exact .pair (by decide) (.inr ⟨rfl, by decide⟩)
  · exact .pair (by decide) (.inr ⟨rfl, by decide⟩)
  · exact .pair (by decide) (.inl (by decide))
  · exact .pair (by decide) (.inl (by decide))
  · exact .pair (by decide) (.inl (by decide))
  · next hquote hslash hfeed htab hreturn =>
    split
    · exact .octal (by omega) (by omega) (by omega) (by omega)
    · next hcontrol =>
      refine .plain ?_
      simp only [isPlain, Bool.and_eq_true, decide_eq_true_eq]
      refine ⟨⟨⟨⟨⟨⟨hquote, hslash⟩, hfeed⟩, htab⟩, hreturn⟩, ?_⟩, ?_⟩ <;> omega

theorem itself_of_mem {c : Char} {rest text : List Char} (h : c ∈ ['"', '\\'])
    (hrest : Decoded rest text) : Decoded ('\\' :: c :: rest) (c :: text) := by
  obtain ⟨hx, hoctal, hletter⟩ : c ≠ 'x' ∧ isOctal c = false ∧ c ∉ controls.map Prod.fst := by
    simp only [List.mem_cons, List.not_mem_nil, or_false] at h
    obtain rfl | rfl := h
    · decide
    · decide
  refine .itself hx (fun value hvalue => ?_) hletter hrest
  exact Bool.false_ne_true (hoctal.symm.trans (isOctal_of_digit hvalue))

theorem Encoded.decoded {c : Char} {written rest text : List Char} (h : Encoded c written)
    (hrest : Decoded rest text) : Decoded (written ++ rest) (c :: text) := by
  cases h with
  | plain h =>
      have hc : c ≠ '\\' := by
        rintro rfl
        exact absurd h (by decide)
      exact .plain hc hrest
  | pair _ hstands =>
      obtain hcontrol | ⟨rfl, hmem⟩ := hstands
      · exact .control hcontrol hrest
      · exact itself_of_mem hmem hrest
  | @octal first second third hfirst hsecond hthird hcode =>
      have hdigits : List.Forall₂ (Digit 8)
          [Nat.digitChar first, Nat.digitChar second, Nat.digitChar third]
          [first, second, third] :=
        .cons ⟨hfirst, .inl rfl⟩ (.cons ⟨hsecond, .inl rfl⟩ (.cons ⟨hthird, .inl rfl⟩ .nil))
      have hvalue : c.toNat = Nat.ofDigits 8 [third, second, first] := by
        simp only [Nat.ofDigits_cons, Nat.ofDigits_nil]
        omega
      exact .octal hdigits (List.cons_ne_nil _ _) (.inr rfl) hvalue hrest

theorem decoded_encodeChars (text : List Char) : Decoded (text.flatMap encodeChar) text := by
  induction text with
  | nil => exact .nil
  | cons c text ih =>
      rw [List.flatMap_cons]
      exact (encoded_encodeChar c).decoded ih

theorem decode_encode (text : List Char) : decode (encode text) = text :=
  StandsFor.decode_eq ⟨_, rfl, decoded_encodeChars text⟩

section Scanners

open Header.Lexical (closedLength? stringLength)

theorem digitChar_plain {digit : Nat} (h : digit < 8) :
    Nat.digitChar digit ≠ '"' ∧ Nat.digitChar digit ≠ '\n' ∧ Nat.digitChar digit ≠ '\\' := by
  decide +revert

-- The scanner of headers looks for the closing quote of a literal behind what is written.
theorem closedLength?_encoded {c : Char} {text : List Char} (h : Encoded c text)
    (rest : List Char) :
    closedLength? '"' (text ++ rest) = (closedLength? '"' rest).map (· + text.length) := by
  cases h with
  | plain h =>
      simp only [isPlain, Bool.and_eq_true, decide_eq_true_eq] at h
      rw [List.cons_append, List.nil_append, Header.Lexical.closedLength?.eq_3]
      · simp [h]
      · simp [h]
  | @pair letter hletter _ =>
      rw [List.cons_append, List.cons_append, List.nil_append, closedLength?, if_neg hletter]
      rfl
  | octal hfirst hsecond hthird _ =>
      simp only [List.cons_append, List.nil_append]
      rw [closedLength?, if_neg (digitChar_plain hfirst).2.1, Header.Lexical.closedLength?.eq_3,
        Header.Lexical.closedLength?.eq_3]
      all_goals simp [digitChar_plain hsecond, digitChar_plain hthird, Function.comp_def]

theorem closedLength?_encodeChars (text rest : List Char) :
    closedLength? '"' (text.flatMap encodeChar ++ rest) =
      (closedLength? '"' rest).map (· + (text.flatMap encodeChar).length) := by
  induction text with
  | nil => simp
  | cons c text ih =>
      rw [List.flatMap_cons, List.append_assoc, closedLength?_encoded (encoded_encodeChar c), ih,
        Option.map_map, List.length_append]
      congr 1
      funext length
      simp only [Function.comp_apply]
      omega

-- The scanner of annotations counts the elements in front of the closing quote.
theorem literalElements_encoded {c : Char} {text : List Char} (h : Encoded c text)
    (rest : List Char) :
    literalElements '"' true (text ++ rest) = literalElements '"' true rest + text.length := by
  cases h with
  | plain h =>
      simp only [isPlain, Bool.and_eq_true, decide_eq_true_eq] at h
      rw [List.cons_append, List.nil_append, literalElements.eq_3]
      · simp [h]
      · simp [h]
  | @pair letter hletter _ =>
      rw [List.cons_append, List.cons_append, List.nil_append, literalElements, if_neg hletter]
      rfl
  | octal hfirst hsecond hthird _ =>
      simp only [List.cons_append, List.nil_append]
      rw [literalElements, if_neg (digitChar_plain hfirst).2.1, literalElements.eq_3,
        literalElements.eq_3]
      all_goals simp [digitChar_plain hsecond, digitChar_plain hthird]

theorem literalElements_encodeChars (text rest : List Char) :
    literalElements '"' true (text.flatMap encodeChar ++ rest) =
      literalElements '"' true rest + (text.flatMap encodeChar).length := by
  induction text with
  | nil => simp
  | cons c text ih =>
      rw [List.flatMap_cons, List.append_assoc, literalElements_encoded (encoded_encodeChar c), ih,
        List.length_append]
      omega

-- What stands behind the opening quote of a literal.
def inner (text : List Char) : List Char := text.flatMap encodeChar ++ ['"']

theorem encode_eq_cons (text : List Char) : encode text = '"' :: inner text := rfl

theorem inner_append (text rest : List Char) :
    inner text ++ rest = text.flatMap encodeChar ++ '"' :: rest := by
  simp [inner]

theorem header_lexeme_inner (text rest : List Char) :
    Header.Lexical.lexeme '"' (inner text ++ rest) = ⟨some .string, (inner text).length⟩ := by
  have hclosed : closedLength? '"' (inner text ++ rest) = some (inner text).length := by
    rw [inner_append, closedLength?_encodeChars]
    simp [closedLength?, inner, Nat.add_comm]
  have hstring : Header.Lexical.lexeme '"' (inner text ++ rest) =
      ⟨some .string, stringLength (inner text ++ rest)⟩ := rfl
  rw [hstring, stringLength, hclosed]

theorem lexeme_inner (text rest : List Char) :
    Lexical.lexeme '"' (inner text ++ rest) = ⟨some .string, (inner text).length⟩ := by
  have helements : literalElements '"' true (inner text ++ rest) =
      (text.flatMap encodeChar).length := by
    rw [inner_append, literalElements_encodeChars]
    simp [literalElements]
  have hstring : Lexical.lexeme '"' (inner text ++ rest) =
      literalLexeme '"' true .string .error (inner text ++ rest) := rfl
  rw [hstring, literalLexeme, helements, inner_append]
  simp [inner]

end Scanners

end Reflection.Metadata.Literal
