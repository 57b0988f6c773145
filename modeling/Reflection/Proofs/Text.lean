import Mathlib.Data.List.DropRight
import Mathlib.Data.List.Infix
import Mathlib.Data.List.TakeWhile
import Reflection.Text

namespace Reflection.Text

variable {text : List Char}

theorem lines_append {line : List Char} (hline : '\n' ∉ line) (hreturn : line.getLast? ≠ some '\r')
    (rest : List Char) : lines (line ++ '\n' :: rest) = line :: lines rest := by
  induction line with
  | nil => rw [List.nil_append, lines.eq_3 _ _ (by simp), if_pos rfl]
  | cons c line ih =>
      rw [List.mem_cons, not_or] at hline
      have hpair : ∀ more, c = '\r' → line ++ '\n' :: rest = '\n' :: more → False := by
        rintro more rfl htext
        cases line with
        | nil => exact hreturn rfl
        | cons d line => exact hline.2 ((List.cons.inj htext).1 ▸ List.mem_cons_self)
      have hmore : line.getLast? ≠ some '\r' := by
        cases line with
        | nil => simp
        | cons d line => simpa using hreturn
      rw [List.cons_append, lines.eq_3 _ _ hpair, if_neg (Ne.symm hline.1), ih hline.2 hmore]

theorem after?_append (start text : List Char) : after? start (start ++ text) = some text := by
  rw [after?, if_pos (List.isPrefixOf_iff_prefix.mpr (List.prefix_append start text)),
    List.drop_left]

theorem eq_append_of_after? {start rest : List Char} (h : after? start text = some rest) :
    text = start ++ rest := by
  unfold after? at h
  split at h
  · next hprefix =>
    obtain ⟨more, rfl⟩ := List.isPrefixOf_iff_prefix.mp hprefix
    rw [List.drop_left] at h
    rw [Option.some.inj h]
  · cases h

theorem dropWhile_eq_self {p : Char → Bool} (h : ∀ c ∈ text.head?, p c = false) :
    text.dropWhile p = text := by
  cases text with
  | nil => rfl
  | cons c text => rw [List.dropWhile_cons_of_neg (by simp [h c rfl])]

-- A text without blanks has none to be trimmed.
theorem trim_of_forall (h : ∀ c ∈ text, isBlank c = false) : trim text = text := by
  have hfirst : ∀ c ∈ text.head?, isBlank c = false := fun c hc => h c (List.mem_of_mem_head? hc)
  have hlast : ∀ c ∈ text.reverse.head?, isBlank c = false :=
    fun c hc => h c (List.mem_reverse.mp (List.mem_of_mem_head? hc))
  rw [trim, trimStart, dropWhile_eq_self hfirst, trimEnd, dropWhile_eq_self hlast,
    List.reverse_reverse]

theorem trimEnd_isPrefix (text : List Char) : trimEnd text <+: text := by
  rw [trimEnd, ← List.reverse_suffix, List.reverse_reverse]
  exact List.dropWhile_suffix _

-- What is left of a source without the blanks at its ends.
def IsTrimmed (source text : List Char) : Prop :=
  ∃ front behind, source = front ++ (text ++ behind) ∧
    (∀ c ∈ front ++ behind, isBlank c = true) ∧ (∀ c ∈ text.head?, isBlank c = false) ∧
    ∀ c ∈ text.getLast?, isBlank c = false

theorem head?_dropWhile (p : Char → Bool) (text : List Char) :
    ∀ c ∈ (text.dropWhile p).head?, p c = false := by
  intro c hc
  have hfirst := List.head?_dropWhile_not p text
  rwa [Option.mem_def.mp hc] at hfirst

theorem head?_trim (text : List Char) : ∀ c ∈ (trim text).head?, isBlank c = false := by
  intro c hc
  obtain ⟨behind, hbehind⟩ := trimEnd_isPrefix (trimStart text)
  refine head?_dropWhile isBlank text c ?_
  rw [← trimStart, ← hbehind, ← trim]
  exact List.mem_head?_append_of_mem_head? hc

theorem IsTrimmed.trim_eq {source : List Char} (h : IsTrimmed source text) :
    trim source = text := by
  obtain ⟨front, behind, rfl, hblanks, hfirst, hlast⟩ := h
  obtain ⟨hfront, hbehind⟩ := List.forall_mem_append.mp hblanks
  cases text with
  | nil =>
      rw [trim, trimStart, List.dropWhile_append_of_pos hfront, List.nil_append,
        List.dropWhile_eq_nil_iff.mpr hbehind]
      rfl
  | cons c text =>
      have hstart : trimStart (front ++ (c :: text ++ behind)) = c :: text ++ behind := by
        rw [trimStart, List.dropWhile_append_of_pos hfront]
        exact dropWhile_eq_self hfirst
      rw [trim, hstart, trimEnd, List.reverse_append,
        List.dropWhile_append_of_pos fun c hc => hbehind c (List.mem_reverse.mp hc),
        dropWhile_eq_self (by rwa [List.head?_reverse]), List.reverse_reverse]

theorem isTrimmed_trim (source : List Char) : IsTrimmed source (trim source) := by
  refine ⟨source.takeWhile isBlank, ((trimStart source).reverse.takeWhile isBlank).reverse,
    ?_, ?_, head?_trim source, ?_⟩
  · rw [trim, trimEnd, ← List.reverse_append, List.takeWhile_append_dropWhile,
      List.reverse_reverse, trimStart, List.takeWhile_append_dropWhile]
  · rw [List.forall_mem_append]
    exact ⟨fun c hc => List.mem_takeWhile_imp hc,
      fun c hc => List.mem_takeWhile_imp (List.mem_reverse.mp hc)⟩
  · rw [trim, trimEnd, List.getLast?_reverse]
    exact head?_dropWhile isBlank _

theorem isTrimmed_iff {source : List Char} : IsTrimmed source text ↔ trim source = text :=
  ⟨IsTrimmed.trim_eq, fun h => h ▸ isTrimmed_trim source⟩

theorem trim_trim (text : List Char) : trim (trim text) = trim text := by
  have hstart : trimStart (trim text) = trim text := dropWhile_eq_self (head?_trim text)
  rw [trim, hstart, trim, trimEnd, trimEnd, List.reverse_reverse, List.dropWhile_idempotent]

theorem mem_of_mem_trim {c : Char} (h : c ∈ trim text) : c ∈ text :=
  (List.dropWhile_suffix _).subset ((trimEnd_isPrefix _).subset h)

theorem splitOnce_append {separator : Char} {first : List Char} (h : separator ∉ first)
    (rest : List Char) : splitOnce separator (first ++ separator :: rest) = some (first, rest) := by
  have hfirst : ∀ c ∈ first, decide (c ≠ separator) = true := by
    intro c hmem
    exact decide_eq_true fun hc => h (hc ▸ hmem)
  rw [splitOnce, if_pos (by simp), List.takeWhile_append_of_pos hfirst,
    List.dropWhile_append_of_pos hfirst]
  simp

theorem splitOnce_eq_none {separator : Char} :
    splitOnce separator text = none ↔ separator ∉ text := by
  simp [splitOnce]

theorem notMem_of_splitOnce {separator : Char} {first rest : List Char}
    (h : splitOnce separator text = some (first, rest)) : separator ∉ first := by
  unfold splitOnce at h
  split at h
  · obtain ⟨rfl, _⟩ := Prod.mk.inj (Option.some.inj h)
    intro hmem
    simpa using List.mem_takeWhile_imp hmem
  · cases h

-- The first occurrence of a text in another one, if there is any.
theorem indexOf?_cases (wanted text : List Char) :
    (¬wanted <:+: text ∧ indexOf? wanted text = none) ∨
      ∃ front behind, text = front ++ (wanted ++ behind) ∧
        (∀ other more, text = other ++ (wanted ++ more) → front.length ≤ other.length) ∧
        indexOf? wanted text = some front.length := by
  induction text with
  | nil =>
      cases wanted with
      | nil => exact .inr ⟨[], [], rfl, fun _ _ _ => Nat.zero_le _, rfl⟩
      | cons c wanted => exact .inl ⟨by simp, rfl⟩
  | cons c text ih =>
      by_cases hprefix : wanted <+: c :: text
      · obtain ⟨behind, hbehind⟩ := hprefix
        refine .inr ⟨[], behind, hbehind.symm, fun _ _ _ => Nat.zero_le _, ?_⟩
        rw [indexOf?, if_pos (List.isPrefixOf_iff_prefix.mpr ⟨behind, hbehind⟩)]
        rfl
      have hindex : indexOf? wanted (c :: text) = (indexOf? wanted text).map (· + 1) := by
        rw [indexOf?, if_neg fun h => hprefix (List.isPrefixOf_iff_prefix.mp h)]
      obtain ⟨hnone, hmore⟩ | ⟨front, behind, htext, hfirst, hmore⟩ := ih
      · refine .inl ⟨fun hinfix => ?_, by rw [hindex, hmore]; rfl⟩
        exact (List.infix_cons_iff.mp hinfix).elim hprefix hnone
      · refine .inr ⟨c :: front, behind, by rw [htext, List.cons_append], ?_, ?_⟩
        · intro other more hother
          cases other with
          | nil => exact absurd ⟨more, hother.symm⟩ hprefix
          | cons d other => exact Nat.succ_le_succ (hfirst other more (List.cons.inj hother).2)
        · rw [hindex, hmore]
          rfl

section Replacing

variable {wanted replacement : List Char}

theorem replaceFirst_append (wanted replacement rest : List Char) :
    replaceFirst wanted replacement (wanted ++ rest) = replacement ++ rest := by
  have hindex : indexOf? wanted (wanted ++ rest) = some 0 := by
    cases hall : wanted ++ rest with
    | nil => simp_all [indexOf?]
    | cons c more =>
        have hprefix : wanted <+: c :: more := hall ▸ List.prefix_append wanted rest
        rw [indexOf?, if_pos (List.isPrefixOf_iff_prefix.mpr hprefix)]
  rw [replaceFirst, hindex]
  simp

-- Either there is nothing to replace, or the first occurrence is replaced.
theorem replaceFirst_cases (wanted replacement text : List Char) :
    (¬wanted <:+: text ∧ replaceFirst wanted replacement text = text) ∨
      ∃ front behind, text = front ++ (wanted ++ behind) ∧ (front ≠ [] → ¬wanted <+: text) ∧
        replaceFirst wanted replacement text = front ++ (replacement ++ behind) := by
  obtain ⟨hnone, hindex⟩ | ⟨front, behind, htext, hfirst, hindex⟩ := indexOf?_cases wanted text
  · exact .inl ⟨hnone, by rw [replaceFirst, hindex]⟩
  · refine .inr ⟨front, behind, htext, fun hne ⟨more, hmore⟩ => hne ?_, ?_⟩
    · exact List.length_eq_zero_iff.mp (Nat.le_zero.mp (hfirst [] more hmore.symm))
    · rw [replaceFirst, hindex, htext]
      simp

end Replacing

end Reflection.Text
