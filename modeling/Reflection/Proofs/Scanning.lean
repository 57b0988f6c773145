import Reflection.Token

namespace Reflection

variable {κ : Type} {rule : Char → List Char → Lexeme κ} {ending : κ}

-- The same token further on.
def Token.moved (distance : Nat) (token : Token κ) : Token κ :=
  { token with start := token.start + distance }

namespace Tokens

theorem toList_cons (token : Token κ) (tokens : Tokens κ) :
    (tokens.cons token).toList = token :: tokens.toList := rfl

-- Puts the tokens of an earlier part in front.
def behind (items : List (Token κ)) (tokens : Tokens κ) : Tokens κ :=
  { tokens with items := items ++ tokens.items }

end Tokens

theorem scanFrom_token {c : Char} {rest : List Char} {kind : κ} {extra : Nat}
    (h : rule c rest = ⟨some kind, extra⟩) (start : Nat) (lead : List Char) :
    scanFrom rule ending start lead (c :: rest) =
      (scanFrom rule ending (start + Text.byteLength (c :: rest.take extra)) []
        (rest.drop extra)).cons ⟨kind, start, lead, c :: rest.take extra⟩ := by
  rw [scanFrom, h]

theorem scanFrom_skip {c : Char} {rest : List Char} {extra : Nat}
    (h : rule c rest = ⟨none, extra⟩) (start : Nat) (lead : List Char) :
    scanFrom rule ending start lead (c :: rest) =
      scanFrom rule ending (start + Text.byteLength (c :: rest.take extra))
        (lead ++ c :: rest.take extra) (rest.drop extra) := by
  rw [scanFrom, h]

-- A token whose text is known.
theorem scanFrom_whole {c : Char} {more rest : List Char} {kind : κ}
    (h : rule c (more ++ rest) = ⟨some kind, more.length⟩) (start : Nat) (lead : List Char) :
    scanFrom rule ending start lead (c :: (more ++ rest)) =
      (scanFrom rule ending (start + Text.byteLength (c :: more)) [] rest).cons
        ⟨kind, start, lead, c :: more⟩ := by
  rw [scanFrom_token h, List.take_left, List.drop_left]

-- Every piece that the text is cut into stays the same if `rest` follows the text.
inductive CutBefore (rule : Char → List Char → Lexeme κ) (rest : List Char) : List Char → Prop where
  | nil : CutBefore rule rest []
  | cons {c : Char} {more : List Char} (hsame : rule c (more ++ rest) = rule c more)
      (hwithin : (rule c more).extra ≤ more.length)
      (hmore : CutBefore rule rest (more.drop (rule c more).extra)) :
      CutBefore rule rest (c :: more)

theorem scanFrom_append {text rest : List Char} (h : CutBefore rule rest text) (start : Nat)
    (lead : List Char) :
    scanFrom rule ending start lead (text ++ rest) =
      (scanFrom rule ending (scanFrom rule ending start lead text).ending.start
        (scanFrom rule ending start lead text).ending.lead rest).behind
          (scanFrom rule ending start lead text).items := by
  induction h generalizing start lead with
  | nil => simp [scanFrom, Tokens.behind]
  | @cons c more hsame hwithin _ ih =>
      have htake := @List.take_append_of_le_length _ more rest _ hwithin
      have hdrop := @List.drop_append_of_le_length _ more rest _ hwithin
      cases hlexeme : rule c more with
      | mk kind extra =>
          rw [hlexeme] at hsame htake hdrop ih
          cases kind with
          | none =>
              rw [List.cons_append, scanFrom_skip hsame, scanFrom_skip hlexeme, htake, hdrop]
              exact ih _ _
          | some kind =>
              rw [List.cons_append, scanFrom_token hsame, scanFrom_token hlexeme, htake, hdrop, ih]
              rfl

-- The tokens of a text and the skipped text in front of them spell it.
theorem spelled_scanFrom (start : Nat) (lead text : List Char) :
    (scanFrom rule ending start lead text).items.flatMap Token.spelled ++
      (scanFrom rule ending start lead text).ending.lead = lead ++ text := by
  fun_induction scanFrom rule ending start lead text with
  | case1 start lead => simp
  | case2 start lead c rest lexeme text next hkind ih =>
      rw [ih, List.append_assoc]
      simp [text]
  | case3 start lead c rest lexeme text next kind hkind ih =>
      simp only [Tokens.cons, List.flatMap_cons, Token.spelled, List.append_assoc]
      rw [ih]
      simp [text]

-- A text that is read elsewhere has the same tokens there.
theorem scanFrom_moved (distance start : Nat) (lead text : List Char) :
    (scanFrom rule ending (start + distance) lead text).toList =
      (scanFrom rule ending start lead text).toList.map (Token.moved distance) := by
  fun_induction scanFrom rule ending start lead text with
  | case1 start lead =>
      rw [scanFrom]
      rfl
  | case2 start lead c rest lexeme text next hkind ih =>
      have hskip : rule c rest = ⟨none, lexeme.extra⟩ := by rw [← hkind]
      rw [scanFrom_skip hskip, ← ih, Nat.add_right_comm]
  | case3 start lead c rest lexeme text next kind hkind ih =>
      have htoken : rule c rest = ⟨some kind, lexeme.extra⟩ := by rw [← hkind]
      rw [scanFrom_token htoken, Tokens.toList_cons, Tokens.toList_cons, List.map_cons, ← ih,
        Nat.add_right_comm]
      rfl

-- The skipped text that a scan starts with stands in front of its first token.
theorem exists_lead_scanFrom {κ : Type} {rule : Char → List Char → Lexeme κ} {ending : κ}
    (start : Nat) (lead text : List Char) :
    ∃ token ∈ (scanFrom rule ending start lead text).toList, lead <+: token.lead := by
  fun_induction scanFrom rule ending start lead text with
  | case1 start lead => exact ⟨_, List.mem_singleton_self _, List.prefix_refl lead⟩
  | case2 start lead c rest lexeme text next hkind ih =>
      obtain ⟨token, hmem, hlead⟩ := ih
      exact ⟨token, hmem, (List.prefix_append lead text).trans hlead⟩
  | case3 start lead c rest lexeme text next kind hkind ih =>
      exact ⟨_, List.mem_cons_self, List.prefix_refl lead⟩

theorem takeWhile_append_stop {α : Type} {p : α → Bool} {stop : α} (h : p stop = false)
    (first rest : List α) : (first ++ stop :: rest).takeWhile p = first.takeWhile p := by
  induction first with
  | nil => simp [h]
  | cons a first ih => simp only [List.cons_append, List.takeWhile_cons, ih]

theorem take_takeWhile (p : Char → Bool) (text : List Char) :
    text.take (text.takeWhile p).length = text.takeWhile p :=
  (List.prefix_iff_eq_take.mp (List.takeWhile_prefix p)).symm

theorem head?_drop_takeWhile (p : Char → Bool) (text : List Char) :
    (text.drop (text.takeWhile p).length).head?.any p = false := by
  induction text with
  | nil => rfl
  | cons c text ih =>
      by_cases hc : p c = true
      · simpa [hc] using ih
      · simp [hc]

end Reflection
