import Mathlib.Data.List.Forall2
import Mathlib.Data.Nat.Digits.Lemmas
import Mathlib.Data.Nat.ModEq
import Mathlib.Tactic.Ring
import Reflection.Metadata.Literal
import Reflection.Proofs.Literals
import Reflection.Proofs.Text

namespace Reflection.Metadata.Literal

-- Letters count as digits in lower and in upper case.
def Digit (base : Nat) (c : Char) (value : Nat) : Prop :=
  value < base ∧ (c = Nat.digitChar value ∨ c = (Nat.digitChar value).toUpper)

-- The digits of an escape end here.
def NoDigit (base : Nat) (rest : List Char) : Prop := ∀ c ∈ rest.head?, ∀ value, ¬Digit base c value

-- The control characters that have a letter of their own.
def controls : List (Char × Char) :=
  [('n', '\n'), ('t', '\t'), ('r', '\r'), ('a', '\x07'), ('b', '\x08'), ('f', '\x0c'),
    ('v', '\x0b')]

-- What is between the quotes of a literal, and the text that it stands for.
inductive Decoded : List Char → List Char → Prop where
  | nil : Decoded [] []
  | plain {c : Char} {rest text : List Char} (hc : c ≠ '\\') (hrest : Decoded rest text) :
      Decoded (c :: rest) (c :: text)
  | control {letter c : Char} {rest text : List Char} (hletter : (letter, c) ∈ controls)
      (hrest : Decoded rest text) : Decoded ('\\' :: letter :: rest) (c :: text)
  -- one, two or three digits
  | octal {digits rest text : List Char} {values : List Nat} {c : Char}
      (hdigits : List.Forall₂ (Digit 8) digits values) (hsome : digits ≠ [])
      (hlength : digits.length < 3 ∧ NoDigit 8 rest ∨ digits.length = 3)
      (hcode : c.toNat = Nat.ofDigits 8 values.reverse) (hrest : Decoded rest text) :
      Decoded ('\\' :: (digits ++ rest)) (c :: text)
  -- any number of digits, read modulo 2 ^ 32
  | hex {digits rest text : List Char} {values : List Nat} {c : Char}
      (hdigits : List.Forall₂ (Digit 16) digits values) (hsome : digits ≠ [])
      (hstop : NoDigit 16 rest) (hcode : c.toNat = Nat.ofDigits 16 values.reverse % 2 ^ 32)
      (hrest : Decoded rest text) : Decoded ('\\' :: 'x' :: (digits ++ rest)) (c :: text)
  -- there is no such character
  | unknown {digits rest text : List Char} {values : List Nat}
      (hdigits : List.Forall₂ (Digit 16) digits values) (hstop : NoDigit 16 rest)
      (hcode : digits = [] ∨ ∀ c : Char, c.toNat ≠ Nat.ofDigits 16 values.reverse % 2 ^ 32)
      (hrest : Decoded rest text) :
      Decoded ('\\' :: 'x' :: (digits ++ rest)) ('\\' :: 'x' :: text)
  | itself {c : Char} {rest text : List Char} (hx : c ≠ 'x') (hdigit : ∀ value, ¬Digit 8 c value)
      (hletter : c ∉ controls.map Prod.fst) (hrest : Decoded rest text) :
      Decoded ('\\' :: c :: rest) (c :: text)
  | backslash : Decoded ['\\'] ['\\']

-- A literal in its quotes, and the text that it stands for.
def StandsFor (literal text : List Char) : Prop :=
  ∃ body, literal = '"' :: (body ++ ['"']) ∧ Decoded body text

section Digits

variable {base : Nat} {c : Char} {value : Nat}

theorem Digit.isHex_and (h : Digit base c value) (hvalue : value < 16) :
    isHex c = true ∧ (digitValue c).toNat = value ∧ (isOctal c = true ↔ value < 8) := by
  obtain ⟨-, rfl | rfl⟩ := h
  · decide +revert
  · decide +revert

theorem isHex_of_digit (h : Digit 16 c value) : isHex c = true :=
  (h.isHex_and h.1).1

theorem Digit.toNat_digitValue (h : Digit 16 c value) : (digitValue c).toNat = value :=
  (h.isHex_and h.1).2.1

theorem Digit.hex_of_octal (h : Digit 8 c value) : Digit 16 c value :=
  ⟨h.1.trans (by decide), h.2⟩

theorem isOctal_of_digit (h : Digit 8 c value) : isOctal c = true :=
  (h.isHex_and h.hex_of_octal.1).2.2.mpr h.1

theorem digit_of_isHex (h : isHex c = true) : Digit 16 c (digitValue c).toNat := by
  have hascii : ∀ code < 128, isHex (Char.ofNat code) = true →
      (digitValue (Char.ofNat code)).toNat < 16 ∧
        (Char.ofNat code = Nat.digitChar (digitValue (Char.ofNat code)).toNat ∨
          Char.ofNat code = (Nat.digitChar (digitValue (Char.ofNat code)).toNat).toUpper) := by
    decide +kernel
  have hcode : c.toNat < 128 := by
    simp only [isHex, Char.isDigit, Bool.or_eq_true, Bool.and_eq_true, decide_eq_true_eq,
      Char.le_def, UInt32.le_iff_toNat_le] at h
    simp at h
    omega
  have hdigit := hascii c.toNat hcode
  rw [Char.ofNat_toNat] at hdigit
  exact hdigit h

theorem isHex_of_isOctal (h : isOctal c = true) : isHex c = true := by
  simp only [isOctal, Bool.and_eq_true, decide_eq_true_eq, Char.le_def,
    UInt32.le_iff_toNat_le] at h
  simp only [isHex, Char.isDigit, Bool.or_eq_true, Bool.and_eq_true, decide_eq_true_eq,
    Char.le_def, UInt32.le_iff_toNat_le]
  simp at h ⊢
  omega

theorem digit_of_isOctal (h : isOctal c = true) : Digit 8 c (digitValue c).toNat := by
  have hdigit := digit_of_isHex (isHex_of_isOctal h)
  exact ⟨(hdigit.isHex_and hdigit.1).2.2.mp h, hdigit.2⟩

theorem toNat_foldl_digits {digits : List Char} {values : List Nat}
    (h : List.Forall₂ (Digit 16) digits values) (base start : UInt32) :
    (digits.foldl (fun value digit => value * base + digitValue digit) start).toNat =
      (start.toNat * base.toNat ^ values.length + Nat.ofDigits base.toNat values.reverse) %
        2 ^ 32 := by
  induction h generalizing start with
  | nil =>
      have hsmall := start.toNat_lt
      simp [Nat.mod_eq_of_lt hsmall]
  | @cons c value digits values hdigit _ ih =>
      have hstep : (start * base + digitValue c).toNat ≡
          start.toNat * base.toNat + value [MOD 2 ^ 32] := by
        rw [UInt32.toNat_add, UInt32.toNat_mul, hdigit.toNat_digitValue]
        exact (Nat.mod_modEq _ _).trans ((Nat.mod_modEq _ _).add_right _)
      have hsum : (start.toNat * base.toNat + value) * base.toNat ^ values.length +
          Nat.ofDigits base.toNat values.reverse =
            start.toNat * base.toNat ^ (value :: values).length +
              Nat.ofDigits base.toNat (value :: values).reverse := by
        rw [List.reverse_cons, Nat.ofDigits_append, Nat.ofDigits_singleton, List.length_reverse,
          List.length_cons]
        ring
      rw [List.foldl_cons, ih]
      exact hsum ▸ (hstep.mul_right _).add_right _

-- The number that the digits are written for, but for the wrap-around.
theorem toNat_digitsValue {digits : List Char} {values : List Nat}
    (h : List.Forall₂ (Digit 16) digits values) (base : UInt32) :
    (digitsValue base digits).toNat = Nat.ofDigits base.toNat values.reverse % 2 ^ 32 := by
  rw [digitsValue, toNat_foldl_digits h, UInt32.toNat_zero, Nat.zero_mul, Nat.zero_add]

example : digitsValue 16 "100000041".toList = 'A'.val := by decide

theorem isHex_iff : isHex c = true ↔ ∃ value, Digit 16 c value :=
  ⟨fun h => ⟨_, digit_of_isHex h⟩, fun ⟨_, h⟩ => isHex_of_digit h⟩

theorem isOctal_iff : isOctal c = true ↔ ∃ value, Digit 8 c value :=
  ⟨fun h => ⟨_, digit_of_isOctal h⟩, fun ⟨_, h⟩ => isOctal_of_digit h⟩

end Digits

section Runs

variable {base : Nat} {p : Char → Bool} {digits rest : List Char} {values : List Nat}

theorem forall_of_digits (hp : ∀ c, p c = true ↔ ∃ value, Digit base c value)
    (h : List.Forall₂ (Digit base) digits values) : ∀ c ∈ digits, p c = true := by
  induction h with
  | nil => exact List.forall_mem_nil _
  | cons hdigit _ ih => exact List.forall_mem_cons.mpr ⟨(hp _).mpr ⟨_, hdigit⟩, ih⟩

theorem values_lt (h : List.Forall₂ (Digit base) digits values) :
    ∀ value ∈ values, value < base := by
  induction h with
  | nil => exact List.forall_mem_nil _
  | cons hdigit _ ih => exact List.forall_mem_cons.mpr ⟨hdigit.1, ih⟩

theorem exists_values (hp : ∀ c, p c = true ↔ ∃ value, Digit base c value)
    (h : ∀ c ∈ digits, p c = true) : ∃ values, List.Forall₂ (Digit base) digits values := by
  induction digits with
  | nil => exact ⟨[], .nil⟩
  | cons c digits ih =>
      obtain ⟨hc, hdigits⟩ := List.forall_mem_cons.mp h
      obtain ⟨value, hvalue⟩ := (hp c).mp hc
      obtain ⟨values, hvalues⟩ := ih hdigits
      exact ⟨value :: values, .cons hvalue hvalues⟩

theorem takeWhile_digits (hp : ∀ c, p c = true ↔ ∃ value, Digit base c value)
    (h : List.Forall₂ (Digit base) digits values) (hstop : NoDigit base rest) :
    (digits ++ rest).takeWhile p = digits := by
  refine takeWhile_of_stop (forall_of_digits hp h) ?_
  rw [Option.any_eq_false]
  refine fun c hc => Bool.eq_false_iff.mpr fun htrue => ?_
  obtain ⟨value, hvalue⟩ := (hp c).mp htrue
  exact hstop c hc value hvalue

-- A text is cut behind the digits at its front.
theorem exists_run (hp : ∀ c, p c = true ↔ ∃ value, Digit base c value) (text : List Char) :
    ∃ rest values, text = text.takeWhile p ++ rest ∧
      List.Forall₂ (Digit base) (text.takeWhile p) values ∧ NoDigit base rest := by
  have hdigits : ∀ c ∈ text.takeWhile p, p c = true := fun c hc => List.mem_takeWhile_imp hc
  obtain ⟨values, hvalues⟩ := exists_values hp hdigits
  refine ⟨text.dropWhile p, values, List.takeWhile_append_dropWhile.symm, hvalues, ?_⟩
  intro c hc value hvalue
  have hstop := Text.head?_dropWhile p text c hc
  exact Bool.false_ne_true (hstop.symm.trans ((hp c).mpr ⟨value, hvalue⟩))

-- Behind the first octal digit of an escape at most two more belong to it.
theorem exists_octal_run (rest : List Char) :
    ∃ more after, rest = more ++ after ∧ (∀ c ∈ more, isOctal c = true) ∧
      (more.length < 2 ∧ NoDigit 8 after ∨ more.length = 2) := by
  obtain ⟨after, values, hrest, hdigits, hstop⟩ := exists_run (fun _ => isOctal_iff) rest
  have hall := forall_of_digits (fun _ => isOctal_iff) hdigits
  by_cases hshort : (rest.takeWhile isOctal).length < 2
  · exact ⟨_, after, hrest, hall, .inl ⟨hshort, hstop⟩⟩
  · refine ⟨(rest.takeWhile isOctal).take 2, (rest.takeWhile isOctal).drop 2 ++ after, ?_,
      fun c hc => hall c (List.mem_of_mem_take hc), .inr ?_⟩
    · rwa [← List.append_assoc, List.take_append_drop]
    · rw [List.length_take]
      omega

theorem octal_lt (hdigits : List.Forall₂ (Digit 8) digits values) (hlength : digits.length ≤ 3) :
    Nat.ofDigits 8 values.reverse < 8 ^ 3 := by
  have hshort : values.reverse.length ≤ 3 := by
    rwa [List.length_reverse, ← hdigits.length_eq]
  have hvalues : ∀ value ∈ values.reverse, value < 8 :=
    fun value hvalue => values_lt hdigits value (List.mem_reverse.mp hvalue)
  have hbound := Nat.ofDigits_lt_base_pow_length (by decide) hvalues
  exact hbound.trans_le (Nat.pow_le_pow_right (by decide) hshort)

theorem exists_octal_char (hdigits : List.Forall₂ (Digit 8) digits values)
    (hlength : digits.length ≤ 3) :
    ∃ c : Char, c.toNat = Nat.ofDigits 8 values.reverse := by
  have hsmall := octal_lt hdigits hlength
  have hvalid : (Nat.ofDigits 8 values.reverse).isValidChar := by
    unfold Nat.isValidChar
    omega
  exact ⟨Char.ofNatAux _ hvalid, rfl⟩

end Runs

section Escapes

variable {digits rest : List Char} {values : List Nat} {c decoded : Char}

theorem escape_hex (hdigits : List.Forall₂ (Digit 16) digits values) (hsome : digits ≠ [])
    (hstop : NoDigit 16 rest) (hcode : c.toNat = Nat.ofDigits 16 values.reverse % 2 ^ 32) :
    escape 'x' (digits ++ rest) = ([c], digits.length) := by
  have hvalue : (digitsValue 16 digits).toNat = c.toNat :=
    (toNat_digitsValue hdigits 16).trans hcode.symm
  have hvalid : (digitsValue 16 digits).isValidChar := by
    rw [UInt32.isValidChar, hvalue]
    exact c.valid
  unfold escape
  rw [if_pos rfl, takeWhile_digits (fun _ => isHex_iff) hdigits hstop]
  dsimp only
  rw [if_pos ⟨hsome, hvalid⟩, hvalue, Char.ofNat_toNat]

theorem escape_unknown (hdigits : List.Forall₂ (Digit 16) digits values)
    (hstop : NoDigit 16 rest)
    (hcode : digits = [] ∨ ∀ c : Char, c.toNat ≠ Nat.ofDigits 16 values.reverse % 2 ^ 32) :
    escape 'x' (digits ++ rest) = (['\\', 'x'], digits.length) := by
  unfold escape
  rw [if_pos rfl, takeWhile_digits (fun _ => isHex_iff) hdigits hstop]
  dsimp only
  rw [if_neg]
  rintro ⟨hsome, hvalid⟩
  exact hcode.resolve_left hsome ⟨_, hvalid⟩ (toNat_digitsValue hdigits 16)

theorem escape_octal (hdigits : List.Forall₂ (Digit 8) (c :: digits) values)
    (hlength : (c :: digits).length < 3 ∧ NoDigit 8 rest ∨ (c :: digits).length = 3)
    (hcode : decoded.toNat = Nat.ofDigits 8 values.reverse) :
    escape c (digits ++ rest) = ([decoded], digits.length) := by
  have hoctal := forall_of_digits (fun _ => isOctal_iff) hdigits
  obtain ⟨hc, hmore⟩ := List.forall_mem_cons.mp hoctal
  have hx : c ≠ 'x' := by
    rintro rfl
    exact absurd hc (by decide)
  have htake : ((digits ++ rest).take 2).takeWhile isOctal = digits := by
    rw [← List.take_takeWhile]
    obtain ⟨hshort, hstop⟩ | hthree := hlength
    · have hrun : (digits ++ rest).takeWhile isOctal = digits := by
        cases hdigits with
        | cons _ hdigits => exact takeWhile_digits (fun _ => isOctal_iff) hdigits hstop
      rw [hrun, List.take_of_length_le (Nat.le_of_lt_succ hshort.le)]
    · rw [List.takeWhile_append_of_pos hmore, List.take_left' (Nat.succ.inj hthree)]
  have hvalue : (digitsValue 8 (c :: digits)).toNat = decoded.toNat := by
    have hsmall := octal_lt hdigits (by omega)
    rw [toNat_digitsValue (hdigits.imp fun _ _ => Digit.hex_of_octal) 8, hcode]
    exact Nat.mod_eq_of_lt (hsmall.trans (by decide))
  unfold escape
  rw [if_neg hx, if_pos hc]
  dsimp only
  rw [htake, hvalue, Char.ofNat_toNat]

theorem escape_control (h : (c, decoded) ∈ controls) : escape c rest = ([decoded], 0) := by
  simp only [controls, List.mem_cons, List.not_mem_nil, or_false, Prod.mk.injEq] at h
  obtain ⟨rfl, rfl⟩ | ⟨rfl, rfl⟩ | ⟨rfl, rfl⟩ | ⟨rfl, rfl⟩ | ⟨rfl, rfl⟩ | ⟨rfl, rfl⟩ |
    ⟨rfl, rfl⟩ := h <;> rfl

theorem escape_itself (hx : c ≠ 'x') (hdigit : ∀ value, ¬Digit 8 c value)
    (hletter : c ∉ controls.map Prod.fst) : escape c rest = ([c], 0) := by
  have hoctal : ¬isOctal c = true := fun h => hdigit _ (digit_of_isOctal h)
  unfold escape
  rw [if_neg hx, if_neg hoctal]
  split <;> first | rfl | exact absurd (by decide) hletter

end Escapes

section Decoding

variable {c : Char} {body rest text : List Char}

theorem decodeBody_escape (c : Char) (rest : List Char) :
    decodeBody ('\\' :: c :: rest) =
      (escape c rest).1 ++ decodeBody (rest.drop (escape c rest).2) := by
  rw [decodeBody]

theorem decodeBody_plain (h : c ≠ '\\') (rest : List Char) :
    decodeBody (c :: rest) = c :: decodeBody rest := by
  rw [decodeBody.eq_4 _ _ (fun hc _ => h hc) fun _ _ hc _ => h hc]

theorem Decoded.decodeBody_eq (h : Decoded body text) : decodeBody body = text := by
  induction h with
  | nil => rw [decodeBody]
  | plain hc _ ih => rw [decodeBody_plain hc, ih]
  | @octal digits _ _ _ _ hdigits hsome hlength hcode _ ih =>
      cases digits with
      | nil => exact absurd rfl hsome
      | cons digit digits =>
          rw [List.cons_append, decodeBody_escape, escape_octal hdigits hlength hcode,
            List.drop_left, ih, List.singleton_append]
  | hex hdigits hsome hstop hcode _ ih =>
      rw [decodeBody_escape, escape_hex hdigits hsome hstop hcode, List.drop_left, ih,
        List.singleton_append]
  | unknown hdigits hstop hcode _ ih =>
      rw [decodeBody_escape, escape_unknown hdigits hstop hcode, List.drop_left, ih]
      rfl
  | control hletter _ ih =>
      rw [decodeBody_escape, escape_control hletter, List.drop_zero, ih, List.singleton_append]
  | itself hx hdigit hletter _ ih =>
      rw [decodeBody_escape, escape_itself hx hdigit hletter, List.drop_zero, ih,
        List.singleton_append]
  | backslash => rw [decodeBody]

-- The digits of a hexadecimal escape are taken as far as they go.
theorem decoded_hexEscape (h : Decoded (rest.drop (escape 'x' rest).2) text) :
    Decoded ('\\' :: 'x' :: rest) ((escape 'x' rest).1 ++ text) := by
  obtain ⟨after, values, hrest, hdigits, hstop⟩ := exists_run (fun _ => isHex_iff) rest
  generalize rest.takeWhile isHex = digits at hrest hdigits
  subst hrest
  by_cases hchar : digits ≠ [] ∧ ∃ c : Char, c.toNat = Nat.ofDigits 16 values.reverse % 2 ^ 32
  · obtain ⟨hsome, c, hcode⟩ := hchar
    rw [escape_hex hdigits hsome hstop hcode, List.drop_left] at h
    rw [escape_hex hdigits hsome hstop hcode]
    exact .hex hdigits hsome hstop hcode h
  · have hcode : digits = [] ∨
        ∀ c : Char, c.toNat ≠ Nat.ofDigits 16 values.reverse % 2 ^ 32 := by
      rwa [not_and_or, not_not, not_exists] at hchar
    rw [escape_unknown hdigits hstop hcode, List.drop_left] at h
    rw [escape_unknown hdigits hstop hcode]
    exact .unknown hdigits hstop hcode h

theorem decoded_octalEscape (hc : isOctal c = true)
    (h : Decoded (rest.drop (escape c rest).2) text) :
    Decoded ('\\' :: c :: rest) ((escape c rest).1 ++ text) := by
  obtain ⟨more, after, rfl, hmore, hlength⟩ := exists_octal_run rest
  obtain ⟨values, hdigits⟩ := exists_values (fun _ => isOctal_iff)
    (List.forall_mem_cons.mpr ⟨hc, hmore⟩)
  have hlength : (c :: more).length < 3 ∧ NoDigit 8 after ∨ (c :: more).length = 3 :=
    hlength.imp (And.imp_left Nat.succ_lt_succ) (congrArg Nat.succ)
  obtain ⟨decoded, hcode⟩ := exists_octal_char hdigits (by omega)
  rw [escape_octal hdigits hlength hcode, List.drop_left] at h
  rw [escape_octal hdigits hlength hcode]
  exact .octal hdigits (List.cons_ne_nil _ _) hlength hcode h

theorem decoded_escape (c : Char) (h : Decoded (rest.drop (escape c rest).2) text) :
    Decoded ('\\' :: c :: rest) ((escape c rest).1 ++ text) := by
  by_cases hx : c = 'x'
  · subst hx
    exact decoded_hexEscape h
  by_cases hoctal : isOctal c = true
  · exact decoded_octalEscape hoctal h
  by_cases hletter : c ∈ controls.map Prod.fst
  · obtain ⟨⟨letter, control⟩, hmem, rfl⟩ := List.mem_map.mp hletter
    rw [escape_control hmem] at h ⊢
    exact .control hmem h
  · have hdigit : ∀ value, ¬Digit 8 c value := fun _ hvalue => hoctal (isOctal_of_digit hvalue)
    rw [escape_itself hx hdigit hletter] at h ⊢
    exact .itself hx hdigit hletter h

-- Every text is decoded.
theorem decoded_decodeBody (body : List Char) : Decoded body (decodeBody body) := by
  fun_induction decodeBody body with
  | case1 => exact .nil
  | case2 => exact .backslash
  | case3 c rest _ ih => exact decoded_escape c ih
  | case4 c rest hlast hpair ih =>
      have hc : c ≠ '\\' := by
        intro hc
        cases rest with
        | nil => exact hlast hc rfl
        | cons letter rest => exact hpair letter rest hc rfl
      exact .plain hc ih

theorem decoded_iff : Decoded body text ↔ decodeBody body = text :=
  ⟨Decoded.decodeBody_eq, fun h => h ▸ decoded_decodeBody body⟩

theorem StandsFor.decode_eq {literal : List Char} (h : StandsFor literal text) :
    decode literal = text := by
  obtain ⟨inner, rfl, hdecoded⟩ := h
  have hbody : body ('"' :: (inner ++ ['"'])) = inner := by simp [body]
  rw [decode, hbody, hdecoded.decodeBody_eq]

theorem existsUnique_standsFor (body : List Char) :
    ∃! text, StandsFor ('"' :: (body ++ ['"'])) text := by
  have hstands : StandsFor ('"' :: (body ++ ['"'])) (decodeBody body) :=
    ⟨body, rfl, decoded_iff.mpr rfl⟩
  exact ⟨_, hstands, fun _ hother => hother.decode_eq.symm.trans hstands.decode_eq⟩

end Decoding

end Reflection.Metadata.Literal
