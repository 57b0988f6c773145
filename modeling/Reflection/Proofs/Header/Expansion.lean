import Reflection.Header.Expansion
import Reflection.Proofs.Header.Endings

namespace Reflection.Header

open Lexical

-- A token, or text that is skipped between tokens.
structure Fragment where
  kind : Option TokenKind
  text : List Char

-- The fragments that a text is cut into.
def fragments : List Char → List Fragment
  | [] => []
  | c :: rest =>
    ⟨(lexeme c rest).kind, c :: rest.take (lexeme c rest).extra⟩ ::
      fragments (rest.drop (lexeme c rest).extra)
termination_by text => text.length
decreasing_by simp only [List.length_drop, List.length_cons]; omega

-- The tokens of a text by kind and text, wherever they stand.
def lexed (text : List Char) : List (TokenKind × List Char) :=
  (scan text).items.map fun token => (token.kind, token.text)

namespace Fragment

def token? (fragment : Fragment) : Option (TokenKind × List Char) :=
  fragment.kind.map (·, fragment.text)

def replacement? (macros : Macros) (fragment : Fragment) : Option (List Char) :=
  if fragment.kind = some .ident then macros.lookup fragment.text else none

def expanded (macros : Macros) (fragment : Fragment) : List Char :=
  (fragment.replacement? macros).getD fragment.text

end Fragment

theorem fragments_of_lexeme {c : Char} {more rest : List Char} {kind : Option TokenKind}
    (h : lexeme c (more ++ rest) = ⟨kind, more.length⟩) :
    fragments (c :: (more ++ rest)) = ⟨kind, c :: more⟩ :: fragments rest := by
  rw [fragments, h, List.take_left, List.drop_left]

-- Induction on the fragments of a text.
theorem fragments_induction {motive : List Char → Prop} (nil : motive [])
    (cons : ∀ (c : Char) (more rest : List Char) (kind : Option TokenKind),
      lexeme c (more ++ rest) = ⟨kind, more.length⟩ → motive rest → motive (c :: (more ++ rest)))
    (text : List Char) : motive text := by
  fun_induction fragments text with
  | case1 => exact nil
  | case2 c rest ih =>
      have hcut := List.take_append_drop (lexeme c rest).extra rest
      have hlength : (rest.take (lexeme c rest).extra).length = (lexeme c rest).extra :=
        List.length_take_of_le (lexeme_extra_le c rest)
      have hmotive := cons c (rest.take (lexeme c rest).extra) _ (lexeme c rest).kind
        (by rw [hcut, hlength]) ih
      rwa [hcut] at hmotive

theorem text_fragments (text : List Char) : (fragments text).flatMap Fragment.text = text := by
  induction text using fragments_induction with
  | nil => simp [fragments]
  | cons c more rest kind h ih =>
      rw [fragments_of_lexeme h, List.flatMap_cons, ih]
      rfl

theorem items_scanFrom (start : Nat) (lead text : List Char) :
    ((scanFrom lexeme .eof start lead text).items.map fun token => (token.kind, token.text)) =
      (fragments text).filterMap Fragment.token? := by
  induction text using fragments_induction generalizing start lead with
  | nil => simp [scanFrom, fragments]
  | cons c more rest kind h ih =>
      rw [fragments_of_lexeme h]
      cases kind with
      | none =>
          rw [scanFrom_skip h, List.drop_left, ih, List.filterMap_cons_none rfl]
      | some kind =>
          have htoken : Fragment.token? ⟨some kind, c :: more⟩ = some (kind, c :: more) := rfl
          rw [scanFrom_whole h, List.filterMap_cons_some htoken, ← ih]
          rfl

theorem lexed_eq (text : List Char) : lexed text = (fragments text).filterMap Fragment.token? :=
  items_scanFrom 0 [] text

theorem expandTokens_scanFrom (macros : Macros) (start : Nat) (lead text : List Char) :
    expandTokens macros (scanFrom lexeme .eof start lead text) =
      lead ++ (fragments text).flatMap (Fragment.expanded macros) := by
  induction text using fragments_induction generalizing start lead with
  | nil => simp [scanFrom, fragments, expandTokens]
  | cons c more rest kind h ih =>
      rw [fragments_of_lexeme h, List.flatMap_cons]
      cases kind with
      | none =>
          rw [scanFrom_skip h, List.drop_left, List.take_left, ih, List.append_assoc]
          rfl
      | some kind =>
          have hreplaced : Fragment.expanded macros ⟨some kind, c :: more⟩ =
              replacement macros ⟨kind, start, lead, c :: more⟩ := by
            by_cases hident : kind = .ident
            · simp [Fragment.expanded, Fragment.replacement?, replacement, hident]
            · simp [Fragment.expanded, Fragment.replacement?, replacement, hident]
          have hrest := ih (start + Text.byteLength (c :: more)) []
          rw [List.nil_append] at hrest
          rw [scanFrom_whole h, hreplaced, ← hrest]
          simp [expandTokens, Tokens.cons]

theorem expand_eq (macros : Macros) (text : List Char) :
    expand macros text = (fragments text).flatMap (Fragment.expanded macros) :=
  expandTokens_scanFrom macros 0 [] text

theorem lexed_nil : lexed [] = [] := by
  rw [lexed_eq, fragments]
  rfl

theorem lexed_of_lexeme {c : Char} {more rest : List Char} {kind : Option TokenKind}
    (h : lexeme c (more ++ rest) = ⟨kind, more.length⟩) :
    lexed (c :: (more ++ rest)) = (Fragment.token? ⟨kind, c :: more⟩).toList ++ lexed rest := by
  rw [lexed_eq, lexed_eq, fragments_of_lexeme h]
  cases kind <;> rfl

-- Blanks are skipped one by one as well as all together.
theorem scanFrom_blank {c : Char} (h : isBlank c = true) (start : Nat) (lead rest : List Char) :
    scanFrom lexeme .eof start lead (c :: rest) =
      scanFrom lexeme .eof (start + c.utf8Size) (lead ++ [c]) rest := by
  have hrun {d : Char} (hd : isBlank d = true) (start : Nat) (lead text : List Char) :
      scanFrom lexeme .eof start lead (d :: text) =
        scanFrom lexeme .eof (start + Text.byteLength (d :: text.takeWhile isBlank))
          (lead ++ d :: text.takeWhile isBlank) (text.dropWhile isBlank) := by
    have hcut : lexeme d (text.takeWhile isBlank ++ text.dropWhile isBlank) =
        ⟨none, (text.takeWhile isBlank).length⟩ := by
      rw [List.takeWhile_append_dropWhile, lexeme_blank hd]
    have hskip := @scanFrom_skip _ lexeme .eof _ _ _ hcut start lead
    rwa [List.take_left, List.drop_left, List.takeWhile_append_dropWhile] at hskip
  rw [hrun h]
  cases rest with
  | nil => simp [Text.byteLength]
  | cons d rest =>
      by_cases hd : isBlank d = true
      · rw [List.dropWhile_cons_of_pos hd, List.takeWhile_cons_of_pos hd, hrun hd]
        simp [Text.byteLength, Nat.add_assoc]
      · rw [List.dropWhile_cons_of_neg hd, List.takeWhile_cons_of_neg hd]
        simp [Text.byteLength]

theorem scanFrom_blanks {blanks : List Char} (h : ∀ c ∈ blanks, isBlank c = true) (start : Nat)
    (lead rest : List Char) :
    scanFrom lexeme .eof start lead (blanks ++ rest) =
      scanFrom lexeme .eof (start + Text.byteLength blanks) (lead ++ blanks) rest := by
  induction blanks generalizing start lead with
  | nil => simp [Text.byteLength]
  | cons c blanks ih =>
      rw [List.cons_append, scanFrom_blank (h c List.mem_cons_self),
        ih fun d hd => h d (List.mem_cons_of_mem c hd)]
      simp [Text.byteLength, Nat.add_assoc]

theorem lexed_blanks {blanks : List Char} (h : ∀ c ∈ blanks, isBlank c = true) (rest : List Char) :
    lexed (blanks ++ rest) = lexed rest := by
  rw [lexed, scan, Reflection.scan, scanFrom_blanks h, items_scanFrom, ← lexed_eq]

theorem blanks_of_lexeme {c : Char} {more rest : List Char} {kind : Option TokenKind}
    (h : lexeme c (more ++ rest) = ⟨kind, more.length⟩) (hblank : isBlank c = true) :
    kind = none ∧ ∀ d ∈ c :: more, isBlank d = true := by
  rw [lexeme_blank hblank, Lexeme.mk.injEq] at h
  refine ⟨h.1.symm, List.forall_mem_cons.mpr ⟨hblank, fun d hd => ?_⟩⟩
  exact List.mem_takeWhile_imp ((takeWhile_eq_of_length h.2).symm ▸ hd)

theorem lexed_moved {c : Char} {more rest next : List Char} {kind : Option TokenKind}
    (h : lexeme c (more ++ rest) = ⟨kind, more.length⟩)
    (hends : endsBefore next (c :: more) = true) :
    lexed (c :: (more ++ next)) = (Fragment.token? ⟨kind, c :: more⟩).toList ++ lexed next := by
  by_cases hblank : isBlank c = true
  · obtain ⟨rfl, hblanks⟩ := blanks_of_lexeme h hblank
    rw [← List.cons_append, lexed_blanks hblanks]
    rfl
  · exact lexed_of_lexeme (lexeme_moved h (by simpa using hblank) hends)

-- Every fragment ends where the next one begins, and the last one before `next`.
def eachEnds (next : List Char) : List Fragment → Bool
  | [] => true
  | fragment :: fragments =>
    endsBefore (fragments.flatMap Fragment.text ++ next) fragment.text && eachEnds next fragments

theorem lexed_append {text next : List Char} (h : eachEnds next (fragments text) = true) :
    lexed (text ++ next) = lexed text ++ lexed next := by
  induction text using fragments_induction with
  | nil => rw [lexed_nil, List.nil_append, List.nil_append]
  | cons c more rest kind hlexeme ih =>
      rw [fragments_of_lexeme hlexeme, eachEnds, Bool.and_eq_true, text_fragments] at h
      have hmoved := lexed_moved hlexeme h.1
      rw [List.cons_append, List.append_assoc, hmoved, ih h.2, lexed_of_lexeme hlexeme,
        List.append_assoc]

-- Nothing is joined by a splice: a fragment of the header is not a literal without its closing
-- quote and ends where it did, which has to be looked at if the two characters behind it change;
-- and the fragments of a replacement end in its place as they do on their own.
def splicesEnd (macros : Macros) : List Fragment → Bool
  | [] => true
  | fragment :: fragments =>
    let next := fragments.flatMap (Fragment.expanded macros)
    splicesEnd macros fragments &&
      match fragment.replacement? macros with
      | some replacement => eachEnds next (Header.fragments replacement)
      | none =>
        closedLiteral fragment.text &&
          (next.take 2 = (fragments.flatMap Fragment.text).take 2 || endsBefore next fragment.text)

-- A token stands for itself, or for the tokens of its replacement.
def substituted (macros : Macros) (token : TokenKind × List Char) : List (TokenKind × List Char) :=
  match Fragment.replacement? macros ⟨some token.1, token.2⟩ with
  | some replacement => lexed replacement
  | none => [token]

theorem flatMap_substituted (macros : Macros) (fragment : Fragment) :
    fragment.token?.toList.flatMap (substituted macros) =
      match fragment.replacement? macros with
      | some replacement => lexed replacement
      | none => fragment.token?.toList := by
  obtain ⟨kind, text⟩ := fragment
  cases kind with
  | none => rfl
  | some kind =>
      have htoken : Fragment.token? ⟨some kind, text⟩ = some (kind, text) := rfl
      rw [htoken, Option.toList_some, List.flatMap_singleton, substituted]

theorem lexed_expand {macros : Macros} {text : List Char}
    (h : splicesEnd macros (fragments text) = true) :
    lexed (expand macros text) = (lexed text).flatMap (substituted macros) := by
  rw [expand_eq]
  induction text using fragments_induction with
  | nil => rw [fragments, List.flatMap_nil, lexed_nil, List.flatMap_nil]
  | cons c more rest kind hlexeme ih =>
      rw [fragments_of_lexeme hlexeme, splicesEnd, Bool.and_eq_true, text_fragments] at h
      rw [fragments_of_lexeme hlexeme, lexed_of_lexeme hlexeme, List.flatMap_cons,
        List.flatMap_append, ← ih h.1, flatMap_substituted, Fragment.expanded]
      cases hreplacement : Fragment.replacement? macros ⟨kind, c :: more⟩ with
      | some replacement =>
          rw [hreplacement] at h
          exact lexed_append h.2
      | none =>
          rw [hreplacement] at h
          obtain ⟨hclosed, htake⟩ := Bool.and_eq_true_iff.mp h.2
          have hrest := endsBefore_of_lexeme hlexeme hclosed
          refine lexed_moved hlexeme ?_
          rcases Bool.or_eq_true_iff.mp htake with htake | hends
          · rwa [endsBefore_take (of_decide_eq_true htake)]
          · exact hends

-- An attribute, and an empty replacement between an operator and a blank.
theorem lexed_expand_attribute :
    splicesEnd [("REFL", "[[refl]]"), ("NO", "")]
        (fragments "struct REFL X { int a = b /NO c; };".toList) = true ∧
      lexed (expand [("REFL", "[[refl]]"), ("NO", "")]
          "struct REFL X { int a = b /NO c; };".toList) =
        (lexed "struct REFL X { int a = b /NO c; };".toList).flatMap
          (substituted [("REFL", "[[refl]]"), ("NO", "")]) :=
  ⟨by decide +kernel, lexed_expand (by decide +kernel)⟩

-- Where an empty replacement leaves two operators next to each other, they open a comment.
theorem lexed_expand_ne :
    lexed (expand [("NOTHING", "")] "b /NOTHING* c".toList) ≠
      (lexed "b /NOTHING* c".toList).flatMap (substituted [("NOTHING", "")]) := by
  have hexpanded : lexed (expand [("NOTHING", "")] "b /NOTHING* c".toList) = [(.ident, ['b'])] := by
    decide +kernel
  have hsubstituted : (lexed "b /NOTHING* c".toList).flatMap (substituted [("NOTHING", "")]) =
      [(.ident, ['b']), (.punct, ['/']), (.star, ['*']), (.ident, ['c'])] := by
    decide +kernel
  rw [hexpanded, hsubstituted]
  decide

end Reflection.Header
