import Mathlib.Data.List.TakeWhile
import Reflection.Json.Printer
import Reflection.Json.Reader

namespace Reflection.Json

theorem decimal_toDigits (value : Nat) : decimal (Nat.toDigits 10 value) = value := by
  have h := @Nat.ofDigitChars_ten_toDigits value
  rw [Nat.ofDigitChars_eq_foldl] at h
  simpa only [decimal, digitValue, Nat.mul_comm] using h

theorem isDigit_toDigits {value : Nat} {c : Char} (h : c ∈ Nat.toDigits 10 value) :
    c.isDigit = true :=
  Nat.isDigit_of_mem_toDigits (by decide) (by decide) h

-- No zero stands in front of another digit.
theorem head?_toDigits {value : Nat} (h : 0 < value) :
    (Nat.toDigits 10 value).head? ≠ some '0' := by
  induction value using Nat.strongRecOn with
  | ind value ih =>
      rw [Nat.toDigits_eq_if (by decide)]
      split
      · next hdigit =>
        have hne : ∀ digit < 10, 0 < digit → digit.digitChar ≠ '0' := by decide
        simpa using hne value hdigit h
      · next hlarge =>
        have hfirst := ih (value / 10) (by omega) (by omega)
        obtain ⟨c, more, hcons⟩ := List.exists_cons_of_ne_nil (@Nat.toDigits_ne_nil (value / 10) 10)
        rw [hcons] at hfirst ⊢
        exact hfirst

-- What may stand behind a written value.
def Delimited (rest : List Char) : Prop := ∀ c ∈ rest.head?, c ∈ ",]\x7d \n\t\r".toList

theorem Delimited.not_isDigit {c : Char} {rest : List Char} (h : Delimited (c :: rest)) :
    c.isDigit = false := by
  have hnone : ∀ c ∈ ",]\x7d \n\t\r".toList, (!c.isDigit) = true := List.all_eq_true.mp rfl
  simpa using hnone c (h c rfl)

theorem Delimited.takeWhile {rest : List Char} (h : Delimited rest) :
    rest.takeWhile Char.isDigit = [] := by
  cases rest with
  | nil => rfl
  | cons c rest => rw [List.takeWhile_cons_of_neg (by simp [h.not_isDigit])]

theorem Delimited.dropWhile {rest : List Char} (h : Delimited rest) :
    rest.dropWhile Char.isDigit = rest := by
  cases rest with
  | nil => rfl
  | cons c rest => rw [List.dropWhile_cons_of_neg (by simp [h.not_isDigit])]

-- A part is found, and `rest` is left.
def Takes {α : Type} {bound : Nat} (found : Except Fault (Part α bound)) (value : α)
    (rest : List Char) : Prop :=
  ∃ h, found = .ok ⟨value, rest, h⟩

theorem takes_digits {text rest : List Char} (hne : text ≠ [])
    (hdigits : ∀ c ∈ text, c.isDigit = true) (hrest : Delimited rest) :
    Takes (digits (text ++ rest)) text rest := by
  cases text with
  | nil => exact absurd rfl hne
  | cons c text =>
      have hmore : ∀ d ∈ text, d.isDigit = true := fun d hmem => hdigits d (.tail c hmem)
      refine ⟨by rw [List.length_append, List.length_cons]; omega, ?_⟩
      simp only [List.cons_append]
      rw [digits, if_pos (hdigits c (.head text))]
      simp [List.takeWhile_append_of_pos hmore, List.dropWhile_append_of_pos hmore,
        hrest.takeWhile, hrest.dropWhile]

theorem takes_integerPart (value : Nat) {rest : List Char} (hrest : Delimited rest) :
    Takes (integerPart (Nat.toDigits 10 value ++ rest)) (Nat.toDigits 10 value) rest := by
  have hdigits := takes_digits (@Nat.toDigits_ne_nil value 10) (fun _ => isDigit_toDigits) hrest
  by_cases hzero : value = 0
  · subst hzero
    cases rest with
    | nil => exact hdigits
    | cons c rest =>
        have hrefused : ¬c.isDigit = true := by simp [hrest.not_isDigit]
        change Takes (integerPart ('0' :: c :: rest)) ['0'] (c :: rest)
        rw [integerPart, if_neg hrefused]
        exact ⟨_, rfl⟩
  · have hhead := head?_toDigits (Nat.pos_of_ne_zero hzero)
    rw [integerPart.eq_2]
    · exact hdigits
    · intro c more htext
      obtain ⟨d, others, hcons⟩ := List.exists_cons_of_ne_nil (@Nat.toDigits_ne_nil value 10)
      rw [hcons, List.cons_append] at htext
      rw [hcons, (List.cons.inj htext).1] at hhead
      exact hhead rfl

theorem takes_fractionPart {rest : List Char} (hrest : Delimited rest) :
    Takes (fractionPart rest) [] rest := by
  rw [fractionPart.eq_2]
  · exact ⟨_, rfl⟩
  · rintro more rfl
    exact absurd (hrest '.' rfl) (by decide)

theorem takes_exponentPart {rest : List Char} (hrest : Delimited rest) :
    Takes (exponentPart rest) [] rest := by
  cases rest with
  | nil => exact ⟨_, rfl⟩
  | cons c rest =>
      have hmark : ¬(c = 'e' ∨ c = 'E') := by
        rintro (rfl | rfl) <;> exact absurd (hrest _ rfl) (by decide)
      unfold exponentPart
      dsimp only
      rw [if_neg hmark]
      exact ⟨_, rfl⟩

theorem takes_unsigned (value : Nat) {rest : List Char} (hrest : Delimited rest) :
    Takes (unsigned (Nat.toDigits 10 value ++ rest)) (Nat.toDigits 10 value) rest := by
  obtain ⟨hwhole, hinteger⟩ := takes_integerPart value hrest
  obtain ⟨hfraction, hpoint⟩ := takes_fractionPart hrest
  obtain ⟨hexponent, hmark⟩ := takes_exponentPart hrest
  refine ⟨hwhole, ?_⟩
  rw [unsigned, hinteger]
  dsimp only
  rw [hpoint]
  dsimp only
  rw [hmark]
  simp

theorem le_foldl_digits (start : Nat) (digits : List Char) :
    start ≤ digits.foldl (fun value digit => value * 10 + digitValue digit) start := by
  induction digits generalizing start with
  | nil => exact Nat.le_refl _
  | cons digit digits ih =>
      have := ih (start * 10 + digitValue digit)
      rw [List.foldl_cons]
      omega

theorem appendDigits_of_le {digits : List Char} {start : Nat}
    (h : digits.foldl (fun value digit => value * 10 + digitValue digit) start ≤ maxNatural) :
    appendDigits start digits =
      (digits.foldl (fun value digit => value * 10 + digitValue digit) start, []) := by
  induction digits generalizing start with
  | nil => rfl
  | cons digit digits ih =>
      rw [List.foldl_cons] at h ⊢
      have hnext := le_foldl_digits (start * 10 + digitValue digit) digits
      rw [appendDigits, if_pos (Nat.le_trans hnext h), ih h]

theorem isInRange_toDigits {value : Nat} (h : value ≤ maxNatural) :
    isInRange (Nat.toDigits 10 value) = true := by
  have hdigits : ∀ c ∈ Nat.toDigits 10 value, c.isDigit = true := fun _ => isDigit_toDigits
  have hsign : (Nat.toDigits 10 value).dropWhile (· = '-') = Nat.toDigits 10 value := by
    cases hhead : Nat.toDigits 10 value with
    | nil => rfl
    | cons c more =>
        have hc := hdigits c (by simp [hhead])
        rw [List.dropWhile_cons_of_neg]
        simp only [decide_eq_true_eq]
        rintro rfl
        cases hc
  have hmark : ∀ c ∈ Nat.toDigits 10 value, (!(decide (c = 'e') || decide (c = 'E'))) = true := by
    intro c hmem
    have hc := hdigits c hmem
    have hlower : c ≠ 'e' := fun h => by rw [h] at hc; cases hc
    have hupper : c ≠ 'E' := fun h => by rw [h] at hc; cases hc
    simp [hlower, hupper]
  have hle : decimal (Nat.toDigits 10 value) ≤ maxNatural := by
    rw [decimal_toDigits]
    exact h
  have happend := @appendDigits_of_le (Nat.toDigits 10 value) 0 hle
  have hscaled : (Scaled.of (Nat.toDigits 10 value)).exponent ≤ 0 := by
    simp only [Scaled.of, hsign, List.takeWhile_eq_self_iff.mpr hmark,
      List.takeWhile_eq_self_iff.mpr hdigits, List.dropWhile_eq_nil_iff.mpr hmark,
      List.dropWhile_eq_nil_iff.mpr hdigits, List.drop_nil, happend, appendDigits, exponentOf]
    decide
  rw [isInRange]
  simp [hscaled]

theorem asNatural_ofNat {value : Nat} (h : value ≤ maxNatural) :
    asNatural (ofNat value) = .ok value := by
  have hdigits : (Nat.toDigits 10 value).all Char.isDigit = true :=
    List.all_eq_true.mpr fun _ => isDigit_toDigits
  rw [ofNat, asNatural, decimal_toDigits, if_pos ⟨hdigits, h⟩]

end Reflection.Json
