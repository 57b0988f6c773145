import Mathlib.Data.List.Basic
import Reflection.Settings.Command

namespace Reflection.Command

-- A single quote stands outside of the quotes, behind a backslash.
def singleQuoted (argument : List Char) : List Char :=
  '\'' :: (argument.flatMap (fun c => if c = '\'' then "'\\''".toList else [c]) ++ ['\''])

def doubleQuoted (argument : List Char) : List Char :=
  '"' :: (argument.flatMap (fun c => if c = '"' ∨ c = '\\' then ['\\', c] else [c]) ++ ['"'])

def escaped (argument : List Char) : List Char := argument.flatMap fun c => ['\\', c]

-- How an argument may be spelled.
inductive Spells : List Char → List Char → Prop where
  | singleQuoted (argument : List Char) : Spells (singleQuoted argument) argument
  | doubleQuoted (argument : List Char) : Spells (doubleQuoted argument) argument
  | escaped {argument : List Char} (h : argument ≠ []) : Spells (escaped argument) argument
  | append {first second argument more : List Char} (h : Spells first argument)
      (hmore : Spells second more) : Spells (first ++ second) (argument ++ more)

-- A command line of arguments with blanks around them and, at least one, between them.
inductive Lists : List Char → List (List Char) → Prop where
  | blank {blanks : List Char} (h : ∀ c ∈ blanks, Text.isBlank c = true) : Lists blanks []
  | word {lead word rest argument : List Char} {arguments : List (List Char)}
      (hlead : ∀ c ∈ lead, Text.isBlank c = true) (hword : Spells word argument)
      (hrest : ∀ c ∈ rest.head?, Text.isBlank c = true) (hmore : Lists rest arguments) :
      Lists (lead ++ (word ++ rest)) (argument :: arguments)

section Steps

variable {quote : Option Char} {c : Char}

theorem splitFrom_cons (quote : Option Char) (argument : Option (List Char)) (rest : List Char)
    (h : ¬(c = '\\' ∧ quote ≠ some '\'')) :
    splitFrom quote argument (c :: rest) =
      if quote = some c then splitFrom none argument rest
      else if quote.isSome then splitFrom quote (extend argument c) rest
      else if c = '"' ∨ c = '\'' then splitFrom (some c) (some (argument.getD [])) rest
      else if Text.isBlank c then argument.toList ++ splitFrom none none rest
      else splitFrom none (extend argument c) rest := by
  rw [splitFrom.eq_def]
  exact if_neg h

theorem splitFrom_escape (h : quote ≠ some '\'') (argument : Option (List Char)) (c : Char)
    (rest : List Char) :
    splitFrom quote argument ('\\' :: c :: rest) = splitFrom quote (extend argument c) rest := by
  rw [splitFrom, if_pos ⟨rfl, h⟩]

-- A quote opens.
theorem splitFrom_open (h : c = '"' ∨ c = '\'') (argument : Option (List Char))
    (rest : List Char) :
    splitFrom none argument (c :: rest) = splitFrom (some c) (some (argument.getD [])) rest := by
  obtain rfl | rfl := h <;> rw [splitFrom_cons _ _ _ (by decide)] <;> rfl

-- The quote that is open closes.
theorem splitFrom_close (h : c = '"' ∨ c = '\'') (argument : Option (List Char))
    (rest : List Char) :
    splitFrom (some c) argument (c :: rest) = splitFrom none argument rest := by
  obtain rfl | rfl := h <;> rw [splitFrom_cons _ _ _ (by decide), if_pos rfl]

-- Between quotes all other characters mean themselves.
theorem splitFrom_inside {open? : Char} (hquote : c ≠ open?) (hescape : c = '\\' → open? = '\'')
    (argument : Option (List Char)) (rest : List Char) :
    splitFrom (some open?) argument (c :: rest) =
      splitFrom (some open?) (extend argument c) rest := by
  have hmeans : ¬(c = '\\' ∧ some open? ≠ some '\'') := fun h => h.2 (by rw [hescape h.1])
  rw [splitFrom_cons _ _ _ hmeans, if_neg (by simpa using Ne.symm hquote)]
  rfl

theorem splitFrom_blank (h : Text.isBlank c = true) (argument : Option (List Char))
    (rest : List Char) :
    splitFrom none argument (c :: rest) = argument.toList ++ splitFrom none none rest := by
  have hescape : ¬(c = '\\' ∧ none ≠ some '\'') := by
    rintro ⟨rfl, _⟩
    revert h
    decide
  have hquote : ¬(c = '"' ∨ c = '\'') := by
    rintro (rfl | rfl) <;> revert h <;> decide
  rw [splitFrom_cons _ _ _ hescape, if_neg (by simp), if_neg (by simp), if_neg hquote, if_pos h]

end Steps

section Words

variable {word argument : List Char}

theorem splitFrom_singleQuoted (argument : List Char) (before : Option (List Char))
    (rest : List Char) :
    splitFrom none before (singleQuoted argument ++ rest) =
      splitFrom none (some (before.getD [] ++ argument)) rest := by
  rw [singleQuoted, List.cons_append, List.append_assoc, List.singleton_append,
    splitFrom_open (.inr rfl)]
  generalize before.getD [] = read
  induction argument generalizing read with
  | nil => rw [List.flatMap_nil, List.nil_append, List.append_nil, splitFrom_close (.inr rfl)]
  | cons c argument ih =>
      rw [List.flatMap_cons, List.append_assoc, List.append_cons read c argument, ← ih]
      by_cases hc : c = '\''
      · -- the quotes close, and open again behind the one that is escaped
        subst hc
        calc splitFrom (some '\'') (some read) ('\'' :: '\\' :: '\'' :: '\'' :: _)
            = splitFrom none (some read) ('\\' :: '\'' :: '\'' :: _) :=
              splitFrom_close (.inr rfl) _ _
          _ = splitFrom none (some (read ++ ['\''])) ('\'' :: _) :=
              splitFrom_escape (by decide) _ _ _
          _ = splitFrom (some '\'') (some (read ++ ['\''])) _ := splitFrom_open (.inr rfl) _ _
      · rw [if_neg hc, List.singleton_append, splitFrom_inside hc fun _ => rfl]
        rfl

theorem splitFrom_doubleQuoted (argument : List Char) (before : Option (List Char))
    (rest : List Char) :
    splitFrom none before (doubleQuoted argument ++ rest) =
      splitFrom none (some (before.getD [] ++ argument)) rest := by
  rw [doubleQuoted, List.cons_append, List.append_assoc, List.singleton_append,
    splitFrom_open (.inl rfl)]
  generalize before.getD [] = read
  induction argument generalizing read with
  | nil => rw [List.flatMap_nil, List.nil_append, List.append_nil, splitFrom_close (.inl rfl)]
  | cons c argument ih =>
      rw [List.flatMap_cons, List.append_assoc, List.append_cons read c argument, ← ih]
      by_cases hc : c = '"' ∨ c = '\\'
      · rw [if_pos hc]
        exact splitFrom_escape (by decide) _ _ _
      · rw [not_or] at hc
        rw [if_neg (not_or.mpr hc), List.singleton_append,
          splitFrom_inside hc.1 fun hescape => absurd hescape hc.2]
        rfl

theorem splitFrom_escaped (argument read rest : List Char) :
    splitFrom none (some read) (escaped argument ++ rest) =
      splitFrom none (some (read ++ argument)) rest := by
  induction argument generalizing read with
  | nil => rw [escaped, List.flatMap_nil, List.nil_append, List.append_nil]
  | cons c argument ih =>
      rw [List.append_cons read c argument, ← ih]
      exact splitFrom_escape (by decide) _ _ _

-- However an argument is spelled, it is read behind what has been read of it before.
theorem splitFrom_spelled (h : Spells word argument) (before : Option (List Char))
    (rest : List Char) :
    splitFrom none before (word ++ rest) =
      splitFrom none (some (before.getD [] ++ argument)) rest := by
  induction h generalizing before rest with
  | singleQuoted argument => exact splitFrom_singleQuoted argument before rest
  | doubleQuoted argument => exact splitFrom_doubleQuoted argument before rest
  | @escaped argument h =>
      -- the first character starts the argument
      cases argument with
      | nil => exact absurd rfl h
      | cons c argument =>
          calc splitFrom none before ('\\' :: c :: (escaped argument ++ rest))
              = splitFrom none (extend before c) (escaped argument ++ rest) :=
                splitFrom_escape (by decide) _ _ _
            _ = splitFrom none (some (before.getD [] ++ [c] ++ argument)) rest :=
                splitFrom_escaped _ _ _
            _ = _ := by rw [← List.append_cons]
  | append _ _ ih ihmore =>
      rw [List.append_assoc, ih, ihmore, Option.getD_some, List.append_assoc]

end Words

section Lines

variable {command : List Char} {arguments : List (List Char)}

theorem splitFrom_blanks {blanks : List Char} (h : ∀ c ∈ blanks, Text.isBlank c = true)
    (rest : List Char) :
    splitFrom none none (blanks ++ rest) = splitFrom none none rest := by
  induction blanks with
  | nil => rfl
  | cons c blanks ih =>
      rw [List.forall_mem_cons] at h
      rw [List.cons_append, splitFrom_blank h.1, Option.toList_none, List.nil_append, ih h.2]

-- An argument ends at a blank and at the end of the command line.
theorem splitFrom_some {argument rest : List Char}
    (h : ∀ c ∈ rest.head?, Text.isBlank c = true) :
    splitFrom none (some argument) rest = argument :: splitFrom none none rest := by
  cases rest with
  | nil => rfl
  | cons c rest =>
      have hblank := h c rfl
      rw [splitFrom_blank hblank, splitFrom_blank hblank]
      rfl

-- A command line is split into the arguments that it was written for, however each of them is
-- spelled and whatever blanks stand around them. Arguments may be empty.
theorem split_of_lists (h : Lists command arguments) : split command = arguments := by
  rw [split]
  induction h with
  | @blank blanks h =>
      rw [← List.append_nil blanks, splitFrom_blanks h]
      rfl
  | word hlead hword hrest _ ih =>
      rw [splitFrom_blanks hlead, splitFrom_spelled hword, splitFrom_some hrest, ih]
      rfl

-- A quote between quotes, an empty argument, and two spellings of one argument.
theorem split_of_lists_mixed :
    Lists " 'it'\\''s' \"\" \\a\\ \" b\"\t".toList ["it's".toList, [], "a  b".toList] ∧
      split " 'it'\\''s' \"\" \\a\\ \" b\"\t".toList = ["it's".toList, [], "a  b".toList] := by
  have hspace : ∀ c ∈ [' '], Text.isBlank c = true := List.forall_mem_singleton.mpr rfl
  have htab : ∀ c ∈ ['\t'], Text.isBlank c = true := List.forall_mem_singleton.mpr rfl
  have hhead {c : Char} (hc : Text.isBlank c = true) (rest : List Char) :
      ∀ first ∈ (c :: rest).head?, Text.isBlank first = true := by
    rintro first ⟨⟩
    exact hc
  have hlast : Lists ([' '] ++ ((escaped "a ".toList ++ doubleQuoted " b".toList) ++ ['\t']))
      ["a ".toList ++ " b".toList] :=
    .word hspace ((Spells.escaped (by decide)).append (.doubleQuoted _)) (hhead rfl _) (.blank htab)
  have hlists : Lists
      ([' '] ++ (singleQuoted "it's".toList ++ ([' '] ++ (doubleQuoted [] ++ _)))) _ :=
    .word hspace (.singleQuoted _) (hhead rfl _)
      (.word hspace (.doubleQuoted _) (hhead rfl _) hlast)
  exact ⟨hlists, split_of_lists hlists⟩

end Lines

end Reflection.Command
