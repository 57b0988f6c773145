import Reflection.Json.Parser

namespace Reflection.Json

theorem hexValue?_hexDigit {value : Nat} (h : value < 16) :
    hexValue? (hexDigit value) = some value := by
  revert value
  decide

-- The ways in which a character is written.
inductive Escaped (c : Char) : List Char → Prop where
  | short {mark : Char} (hmark : mark ≠ 'u') (h : simpleEscape? mark = some c) :
      Escaped c ['\\', mark]
  | long {first second third fourth : Char}
      (h : ∀ rest, codeUnit? (first :: second :: third :: fourth :: rest) = some (c.toNat, rest))
      (hcontrol : c.toNat < 0x20) : Escaped c ['\\', 'u', first, second, third, fourth]
  | plain (hquote : c ≠ '"') (hescape : c ≠ '\\') (hcontrol : ¬c.toNat < 0x20) : Escaped c [c]

theorem codeUnit?_control {code : Nat} (h : code < 0x20) (rest : List Char) :
    codeUnit? ('0' :: '0' :: hexDigit (code / 16) :: hexDigit (code % 16) :: rest) =
      some (code, rest) := by
  have hzero : hexValue? '0' = some 0 := rfl
  have hhigh : hexValue? (hexDigit (code / 16)) = some (code / 16) := hexValue?_hexDigit (by omega)
  have hlow : hexValue? (hexDigit (code % 16)) = some (code % 16) := hexValue?_hexDigit (by omega)
  have hcode : code / 16 * 16 + code % 16 = code := by omega
  simp [codeUnit?, hzero, hhigh, hlow, hcode]

theorem escaped_escapeChar (c : Char) : Escaped c (escapeChar c) := by
  unfold escapeChar
  split
  · exact .short (by decide) rfl
  · exact .short (by decide) rfl
  · exact .short (by decide) rfl
  · exact .short (by decide) rfl
  · exact .short (by decide) rfl
  · exact .short (by decide) rfl
  · exact .short (by decide) rfl
  · next hquote hescape _ _ _ _ _ =>
    split
    · next hcontrol => exact .long (codeUnit?_control hcontrol) hcontrol
    · next hcontrol => exact .plain hquote hescape hcontrol

-- The body ends at its quote, and `rest` is left.
def Quoted.Takes {bound : Nat} (quoted : Quoted bound) (body rest : List Char) : Prop :=
  ∃ h, quoted = ⟨body, .ok ⟨rest, h⟩⟩

theorem Quoted.Takes.prepend {bound larger : Nat} {quoted : Quoted bound} {body rest : List Char}
    (h : quoted.Takes body rest) (chars : List Char) (hle : bound ≤ larger) :
    (quoted.prepend chars hle).Takes (chars ++ body) rest := by
  obtain ⟨hrest, rfl⟩ := h
  exact ⟨Nat.lt_of_lt_of_le hrest hle, rfl⟩

theorem stringBody_escaped {c : Char} {written : List Char} (h : Escaped c written)
    {text body rest : List Char} (hbody : (stringBody text).Takes body rest) :
    (stringBody (written ++ text)).Takes (written ++ body) rest := by
  cases h with
  | short hmark h =>
      rw [List.cons_append, List.singleton_append, stringBody.eq_5 _ _ hmark, h]
      exact hbody.prepend _ _
  | long h =>
      simp only [List.cons_append, List.nil_append]
      rw [stringBody.eq_4, h, Option.isSome_some, if_pos rfl]
      exact hbody.prepend _ _
  | plain hquote hescape hcontrol =>
      rw [List.singleton_append, stringBody.eq_6 _ _ hquote (fun h => absurd h hescape)
        (fun _ h => absurd h hescape) (fun _ _ h => absurd h hescape), if_neg hcontrol]
      exact hbody.prepend _ _

theorem stringBody_escape (text rest : List Char) :
    (stringBody (escape text ++ '"' :: rest)).Takes (escape text) rest := by
  induction text with
  | nil =>
      rw [escape, List.flatMap_nil, List.nil_append, stringBody]
      exact ⟨_, rfl⟩
  | cons c text ih =>
      rw [escape, List.flatMap_cons, List.append_assoc]
      exact stringBody_escaped (escaped_escapeChar c) ih

theorem textOf?_escaped {c : Char} {written : List Char} (h : Escaped c written)
    (more : List Char) : textOf? (written ++ more) = (textOf? more).map (c :: ·) := by
  cases h with
  | short hmark h =>
      rw [List.cons_append, List.singleton_append, textOf?.eq_3 _ _ hmark, h]
  | long h hcontrol =>
      have hhigh : isHighSurrogate c.toNat = false := by
        simp only [isHighSurrogate, Bool.and_eq_false_imp, decide_eq_true_eq, decide_eq_false_iff_not]
        omega
      have hlow : isLowSurrogate c.toNat = false := by
        simp only [isLowSurrogate, Bool.and_eq_false_imp, decide_eq_true_eq, decide_eq_false_iff_not]
        omega
      simp only [List.cons_append, List.nil_append]
      rw [textOf?.eq_2, unicodeEscape?, h]
      simp [hhigh, hlow, Char.ofNat_toNat]
  | plain hquote hescape hcontrol =>
      rw [List.singleton_append, textOf?.eq_4 _ _ (fun _ h => absurd h hescape)
        (fun _ _ h => absurd h hescape)]

theorem textOf?_escape (text : List Char) : textOf? (escape text) = some text := by
  induction text with
  | nil => rw [escape, List.flatMap_nil, textOf?]
  | cons c text ih =>
      rw [escape, List.flatMap_cons, textOf?_escaped (escaped_escapeChar c), ← escape, ih]
      rfl

end Reflection.Json
