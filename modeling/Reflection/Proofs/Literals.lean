import Reflection.Token

namespace Reflection

theorem takeWhile_of_stop {p : Char → Bool} {more rest : List Char} (hmore : ∀ c ∈ more, p c = true)
    (hrest : rest.head?.any p = false) : (more ++ rest).takeWhile p = more := by
  rw [List.takeWhile_append_of_pos hmore]
  cases rest with
  | nil => simp
  | cons c rest =>
      have hc : p c = false := by simpa using hrest
      simp [hc]

-- Without a backslash or a line feed, a literal runs up to its closing quote.
theorem literalElements_plain {quote : Char} {spansLines : Bool} {text : List Char}
    (hescape : '\\' ∉ text) (hline : '\n' ∉ text) :
    literalElements quote spansLines text = (text.takeWhile (· ≠ quote)).length := by
  induction text with
  | nil => rfl
  | cons c text ih =>
      rw [List.mem_cons, not_or] at hescape hline
      rw [literalElements.eq_3 _ _ _ _ fun _ _ h _ => hescape.1 h.symm, List.takeWhile_cons]
      by_cases hquote : c = quote
      · simp [hquote]
      · simp [hquote, Ne.symm hescape.1, Ne.symm hline.1, ih hescape.2 hline.2]

theorem literalElements_le (quote : Char) (spansLines : Bool) (text : List Char) :
    literalElements quote spansLines text ≤ text.length := by
  fun_induction literalElements quote spansLines text with
    (simp only [List.length_cons, List.length_nil]; omega)

-- What follows a closed literal does not change it.
theorem literalElements_append {quote : Char} {spansLines : Bool} (hquote : quote ≠ '\\')
    {text : List Char}
    (h : (text.drop (literalElements quote spansLines text)).head? = some quote)
    (rest : List Char) :
    literalElements quote spansLines (text ++ rest) = literalElements quote spansLines text := by
  fun_induction literalElements quote spansLines text with
  | case1 => simp at h
  | case2 => exact absurd (by simpa using h.symm) hquote
  | case3 c more hc ih =>
      rw [List.cons_append, List.cons_append, literalElements, if_neg hc, ih (by simpa using h)]
  | case4 c more hpair hc =>
      have hc' : c = quote := by simpa using h
      subst hc'
      rw [List.cons_append, literalElements.eq_3 _ _ _ _ fun _ _ h _ => hquote h]
      simp
  | case5 c more hpair hc ih =>
      have hne : c ≠ '\\' := fun h => by simp [h] at hc
      rw [List.cons_append, literalElements.eq_3 _ _ _ _ fun _ _ h _ => hne h, if_neg hc,
        ih (by simpa using h)]

theorem literalLexeme_extra_le {κ : Type} (quote : Char) (spansLines : Bool) (literal error : κ)
    (text : List Char) :
    (literalLexeme quote spansLines literal error text).extra ≤ text.length := by
  have hle := literalElements_le quote spansLines text
  unfold literalLexeme
  dsimp only
  split
  · next hquote =>
    cases hdrop : text.drop (literalElements quote spansLines text) with
    | nil =>
      rw [hdrop] at hquote
      cases hquote
    | cons c rest =>
      have := congrArg List.length hdrop
      simp only [List.length_drop, List.length_cons] at this ⊢
      omega
  · exact hle

theorem literalLexeme_append {κ : Type} {quote : Char} {spansLines : Bool} {literal error : κ}
    (hquote : quote ≠ '\\') {text : List Char}
    (h : (text.drop (literalElements quote spansLines text)).head? = some quote)
    (rest : List Char) :
    literalLexeme quote spansLines literal error (text ++ rest) =
      literalLexeme quote spansLines literal error text := by
  have hle := literalElements_le quote spansLines text
  have hsame := literalElements_append hquote h rest
  unfold literalLexeme
  dsimp only
  rw [hsame, List.drop_append_of_le_length hle, List.head?_append, h]
  rfl

theorem literalLexeme_ne {κ : Type} {quote : Char} {spansLines : Bool} {literal error kind : κ}
    (hliteral : literal ≠ kind) (herror : error ≠ kind) (rest : List Char) :
    (literalLexeme quote spansLines literal error rest).kind ≠ some kind := by
  unfold literalLexeme
  dsimp only
  split
  · simpa using hliteral
  · simpa using herror

end Reflection
