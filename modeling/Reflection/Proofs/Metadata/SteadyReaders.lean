import Reflection.Proofs.Metadata.Brackets
import Reflection.Proofs.Metadata.Grammar

namespace Reflection.Metadata

open Attribute

section Steady

variable {α β : Type}

@[simp] theorem moved_kind (distance : Nat) (token : Token) :
    (token.moved distance).kind = token.kind := rfl

@[simp] theorem moved_text (distance : Nat) (token : Token) :
    (token.moved distance).text = token.text := rfl

@[simp] theorem moved_lead (distance : Nat) (token : Token) :
    (token.moved distance).lead = token.lead := rfl

@[simp] theorem moved_spelled (distance : Nat) (token : Token) :
    (token.moved distance).spelled = token.spelled := rfl

-- The same tokens at another place, with others behind them.
def placed (distance : Nat) (behind tokens : List Token) : List Token :=
  tokens.map (Token.moved distance) ++ behind

-- Behind an item stands a comma or nothing.
def EndsItem (behind : List Token) : Prop := behind = [] ∨ kindAt behind = .comma

theorem placed_cons (distance : Nat) (behind : List Token) (token : Token) (tokens : List Token) :
    placed distance behind (token :: tokens) =
      token.moved distance :: placed distance behind tokens := rfl

theorem EndsItem.kindAt {behind : List Token} (h : EndsItem behind) :
    kindAt behind = .eof ∨ kindAt behind = .comma := by
  obtain rfl | hcomma := h
  · exact .inl rfl
  · exact .inr hcomma

-- What can be read of these tokens, up to `rest`, is the same at every place, and whatever stands
-- behind the item. None of it is an error.
structure Steady (read : Token → List Token → Except Malformed (α × List Token))
    (tokens rest : List Token) (found : α) : Prop where
  sound : ∀ token ∈ tokens, token.kind = .error → token ∈ rest
  again : ∀ ending distance behind, EndsItem behind →
    read ending (placed distance behind tokens) = .ok (found, placed distance behind rest)

namespace Steady

variable {tokens rest : List Token} {token : Token} {found : α}

theorem pure (rest : List Token) (found : α) :
    Steady (fun _ tokens => .ok (found, tokens)) rest rest found :=
  ⟨fun _ hmem _ => hmem, fun _ _ _ _ => rfl⟩

-- A reader that takes one token and goes on.
theorem step {read : Token → List Token → Except Malformed (α × List Token)}
    {next : Nat → Token → List Token → Except Malformed (α × List Token)}
    (hkind : token.kind ≠ .error)
    (hread : ∀ ending distance more,
      read ending (token.moved distance :: more) = next distance ending more)
    (hnext : ∀ distance, Steady (next distance) tokens rest found) :
    Steady read (token :: tokens) rest found := by
  refine ⟨fun other hmem herror => ?_, fun ending distance behind hbehind => ?_⟩
  · obtain rfl | hmem := List.mem_cons.mp hmem
    · exact absurd herror hkind
    · exact (hnext 0).sound other hmem herror
  · exact (hread ending distance _).trans ((hnext distance).again ending distance behind hbehind)

end Steady

end Steady

section Readers

variable {ending opening : Token} {tokens rest : List Token} {text found : List Char}

theorem steady_rawArgument {expected : List TokenKind} (other : Token)
    (h : rawArgument ending opening expected text tokens = .ok (found, rest)) :
    Steady (fun ending => rawArgument ending other expected text) tokens rest found := by
  fun_induction rawArgument with
  | case1 => cases h
  | case2 => cases h
  | case3 expected text token tokens herror hopening ih =>
      exact (Steady.step herror fun ending distance more => by
        simp [rawArgument, herror, hopening]) fun _ => ih h
  | case4 => cases h
  | case5 expected text token tokens herror hopening hclosing hhead htail =>
      cases h
      exact (Steady.step herror fun ending distance more => by
        simp [rawArgument, herror, hopening, hclosing, hhead, htail]) fun _ => .pure _ _
  | case6 expected text token tokens herror hopening hclosing hhead htail ih =>
      exact (Steady.step herror fun ending distance more => by
        simp [rawArgument, herror, hopening, hclosing, hhead, htail]) fun _ => ih h
  | case7 expected text token tokens herror hopening hclosing ih =>
      exact (Steady.step herror fun ending distance more => by
        simp [rawArgument, herror, hopening, hclosing]) fun _ => ih h

theorem steady_nestedValue {depth : Nat} (other : Token)
    (h : nestedValue ending opening depth text tokens = .ok (found, rest)) :
    Steady (fun ending => nestedValue ending other depth text) tokens rest found := by
  fun_induction nestedValue with
  | case1 => cases h
  | case2 => cases h
  | case3 depth _ token tokens text herror hopening ih =>
      exact (Steady.step herror fun ending distance more => by
        simp [nestedValue, herror, hopening, text]) fun _ => ih h
  | case4 depth _ token tokens text herror hopening hclosing hlast =>
      obtain ⟨hfound, rfl⟩ := Prod.mk.inj (Except.ok.inj h)
      exact (Steady.step herror fun ending distance more => by
        simp [nestedValue, herror, hopening, hclosing, hlast, ← hfound, text]) fun _ => .pure _ _
  | case5 depth _ token tokens text herror hopening hclosing hlast ih =>
      exact (Steady.step herror fun ending distance more => by
        simp [nestedValue, herror, hopening, hclosing, hlast, text]) fun _ => ih h
  | case6 depth _ token tokens text herror hopening hclosing ih =>
      exact (Steady.step herror fun ending distance more => by
        simp [nestedValue, herror, hopening, hclosing, text]) fun _ => ih h

theorem steady_value (h : value ending tokens = .ok (found, rest)) :
    Steady value tokens rest found := by
  cases tokens with
  | nil => cases h
  | cons token tokens =>
      rw [value] at h
      split at h
      · next hkind =>
        cases h
        exact (Steady.step (by simp [hkind]) fun ending distance more => by
          simp [value, hkind]) fun _ => .pure _ _
      · next hkind =>
        cases h
        exact (Steady.step (by simp [hkind]) fun ending distance more => by
          simp [value, hkind]) fun _ => .pure _ _
      · next hkind =>
        cases h
        exact (Steady.step (by simp [hkind]) fun ending distance more => by
          simp [value, hkind]) fun _ => .pure _ _
      · next hkind =>
        exact (Steady.step (by simp [hkind]) fun ending distance more => by
          simp [value, hkind]) fun distance => steady_nestedValue (token.moved distance) h
      · next hkind =>
        exact (Steady.step (by simp [hkind]) fun ending distance more => by
          simp [value, hkind]) fun distance => steady_nestedValue (token.moved distance) h
      · cases h

theorem steady_objectKey (h : objectKey ending tokens = .ok (found, rest)) :
    Steady objectKey tokens rest found := by
  cases tokens with
  | nil => cases h
  | cons token tokens =>
      rw [objectKey] at h
      split at h
      · next hkind =>
        cases h
        exact (Steady.step (by simp [hkind]) fun ending distance more => by
          simp [objectKey, hkind]) fun _ => .pure _ _
      · next hkind =>
        cases h
        exact (Steady.step (by simp [hkind]) fun ending distance more => by
          simp [objectKey, hkind]) fun _ => .pure _ _
      · cases h

theorem steady_entry {piece : Piece} (h : entry ending tokens = .ok (piece, rest)) :
    Steady entry tokens rest piece := by
  obtain ⟨⟨name, after⟩, hname, h⟩ := exists_ok_of_bind h
  have hkey := steady_objectKey hname
  cases after with
  | nil => cases h
  | cons sign after =>
      dsimp only at h
      split at h
      · next hsign =>
        obtain ⟨⟨text, last⟩, hread, h⟩ := exists_ok_of_bind h
        cases h
        have hvalue := steady_value hread
        refine ⟨fun token hmem herror => ?_, fun ending distance behind hbehind => ?_⟩
        · obtain rfl | hafter := List.mem_cons.mp (hkey.sound token hmem herror)
          · simp [herror] at hsign
          · exact hvalue.sound token hafter herror
        · have hplaced := hkey.again ending distance behind hbehind
          rw [placed_cons] at hplaced
          simp [entry, hplaced, hsign, hvalue.again ending distance behind hbehind, bind,
            Except.bind]
      · cases h

-- A kind that neither a comma nor the end has is found at the same tokens.
theorem kindAt_placed {behind : List Token} (hbehind : EndsItem behind) (distance : Nat)
    (tokens : List Token) {kind : TokenKind} (hend : kind ≠ .eof) (hcomma : kind ≠ .comma) :
    kindAt (placed distance behind tokens) = kind ↔ kindAt tokens = kind := by
  cases tokens with
  | cons token tokens => rfl
  | nil =>
      have hnil : placed distance behind [] = behind := rfl
      rw [hnil]
      obtain h | h := hbehind.kindAt
      · rw [h]
        rfl
      · rw [h]
        exact ⟨fun heq => absurd heq.symm hcomma, fun heq => absurd heq.symm hend⟩

theorem placed_tail (distance : Nat) (behind : List Token) {tokens : List Token}
    (h : tokens ≠ []) :
    (placed distance behind tokens).tail = placed distance behind tokens.tail := by
  cases tokens with
  | nil => exact absurd rfl h
  | cons token tokens => rfl

theorem ne_nil_of_kindAt {kind : TokenKind} (h : kindAt tokens = kind) (hkind : kind ≠ .eof) :
    tokens ≠ [] := by
  rintro rfl
  exact hkind h.symm

-- A token that is taken.
theorem sound_tail {kind : TokenKind} (h : kindAt tokens = kind) (herror : kind ≠ .error)
    {token : Token} (hmem : token ∈ tokens) (hkind : token.kind = .error) :
    token ∈ tokens.tail := by
  cases tokens with
  | nil => cases hmem
  | cons first tokens =>
      obtain rfl | hmem := List.mem_cons.mp hmem
      · exact absurd (h.symm.trans hkind) herror
      · exact hmem

theorem steady_object {pieces : List Piece} (h : object ending tokens = .ok (pieces, rest)) :
    Steady object tokens rest pieces := by
  fun_induction object generalizing pieces rest with
  | case1 tokens hbrace =>
      cases h
      refine ⟨fun token => sound_tail hbrace (by simp), fun ending distance behind hbehind => ?_⟩
      rw [object, if_pos ((kindAt_placed hbehind _ _ (by simp) (by simp)).mpr hbrace),
        placed_tail _ _ (ne_nil_of_kindAt hbrace (by simp))]
  | case2 => cases h
  | case3 tokens hbrace piece after hentry _ hcomma ih =>
      cases hobject : object ending after.tail with
      | error _ =>
          rw [hobject] at h
          cases h
      | ok read =>
          rw [hobject] at h
          cases h
          have hfirst := steady_entry hentry
          have hothers := ih hobject
          refine ⟨fun token hmem herror => ?_, fun ending distance behind hbehind => ?_⟩
          · exact hothers.sound token
              (sound_tail hcomma (by simp) (hfirst.sound token hmem herror) herror) herror
          · have hkind := mt (kindAt_placed hbehind distance tokens (by simp) (by simp)).mp hbrace
            obtain ⟨comma, hafter, hkindComma⟩ := eq_cons_of_kindAt hcomma (by simp)
            rw [object_of_entry hkind (hfirst.again ending distance behind hbehind), hafter,
              placed_cons]
            simp [kindAt, hkindComma, hothers.again ending distance behind hbehind, Except.map]
  | case4 tokens hbrace piece after hentry _ hclose =>
      cases h
      have hfirst := steady_entry hentry
      refine ⟨fun token hmem herror => ?_, fun ending distance behind hbehind => ?_⟩
      · exact sound_tail hclose (by simp) (hfirst.sound token hmem herror) herror
      · have hkind := mt (kindAt_placed hbehind distance tokens (by simp) (by simp)).mp hbrace
        obtain ⟨brace, hafter, hkindBrace⟩ := eq_cons_of_kindAt hclose (by simp)
        rw [object_of_entry hkind (hfirst.again ending distance behind hbehind), hafter,
          placed_cons]
        simp [kindAt, hkindBrace]
  | case5 => cases h

theorem moreNames_placed {behind : List Token} (hbehind : EndsItem behind) (distance : Nat)
    (tokens : List Token) :
    moreNames (placed distance behind tokens) =
      ((moreNames tokens).1, placed distance behind (moreNames tokens).2) := by
  fun_induction moreNames with
  | case1 separator name rest hkinds =>
      rename_i ih
      rw [placed_cons, placed_cons, moreNames, if_pos (by simpa using hkinds), ih]
      rfl
  | case2 separator name rest hkinds =>
      rw [placed_cons, placed_cons, moreNames, if_neg (by simpa using hkinds)]
  | case3 tokens hshort =>
      cases tokens with
      | nil =>
          have hkind := @kindAt_placed behind hbehind distance [] .colonColon (by simp) (by simp)
          exact moreNames_stop (mt hkind.mp (by simp [kindAt]))
      | cons first tokens =>
          cases tokens with
          | nil =>
              -- neither the end nor a comma is a name
              cases behind with
              | nil => rfl
              | cons comma behind =>
                  have hcomma : comma.kind = .comma := hbehind.resolve_left (List.cons_ne_nil _ _)
                  exact if_neg fun h => by simp [hcomma] at h
          | cons second more => exact absurd rfl (hshort first second more)

theorem moreNames_sound (tokens : List Token) :
    ∀ token ∈ tokens, token.kind = .error → token ∈ (moreNames tokens).2 := by
  fun_induction moreNames with
  | case1 separator name rest hkinds =>
      rename_i ih
      rintro token hmem herror
      obtain rfl | hmem := List.mem_cons.mp hmem
      · simp [herror] at hkinds
      · obtain rfl | hmem := List.mem_cons.mp hmem
        · simp [herror] at hkinds
        · exact ih token hmem herror
  | case2 => exact fun token hmem _ => hmem
  | case3 => exact fun token hmem _ => hmem

theorem steady_key {name : List Char} (h : key ending tokens = .ok (name, rest)) :
    Steady key tokens rest name := by
  obtain ⟨⟨first, more⟩, hfirst, h⟩ := exists_ok_of_bind h
  obtain ⟨hnames, hname⟩ := eq_cons_of_expect hfirst
  cases h
  have hsound := moreNames_sound more
  by_cases hqualified : kindAt tokens = .colonColon
  · obtain ⟨separator, htokens, hkind⟩ := eq_cons_of_kindAt hqualified (by simp)
    rw [if_pos (by simpa using hqualified)] at hnames
    rw [hnames] at htokens
    subst htokens
    refine ⟨fun token hmem herror => ?_, fun ending distance behind hbehind => ?_⟩
    · obtain rfl | hmem := List.mem_cons.mp hmem
      · simp [herror] at hkind
      · obtain rfl | hmem := List.mem_cons.mp hmem
        · simp [herror] at hname
        · exact hsound token hmem herror
    · simp [key, placed_cons, kindAt, hkind, expect, hname, moreNames_placed hbehind, bind,
        Except.bind]
  · rw [if_neg (by simpa using hqualified)] at hnames
    subst hnames
    refine ⟨fun token hmem herror => ?_, fun ending distance behind hbehind => ?_⟩
    · obtain rfl | hmem := List.mem_cons.mp hmem
      · simp [herror] at hname
      · exact hsound token hmem herror
    · simp [key, placed_cons, kindAt, expect, hname, moreNames_placed hbehind, bind,
        Except.bind]

theorem steady_argument {name : String} {pieces : List Piece} (other : Token)
    (h : argument ending opening name tokens = .ok (pieces, rest)) :
    Steady (fun ending => argument ending other name) tokens rest pieces := by
  cases tokens with
  | nil => cases h
  | cons token tokens =>
      rw [argument] at h
      split at h
      · next hbrace =>
        obtain ⟨⟨entries, after⟩, hread, h⟩ := exists_ok_of_bind h
        obtain ⟨⟨close, last⟩, hclose, h⟩ := exists_ok_of_bind h
        cases h
        have hobject := steady_object hread
        obtain ⟨rfl, hkind⟩ := eq_cons_of_expect hclose
        refine ⟨fun token hmem herror => ?_, fun ending distance behind hbehind => ?_⟩
        · obtain rfl | hmem := List.mem_cons.mp hmem
          · simp [herror] at hbrace
          · exact sound_tail (show kindAt (close :: _) = .rParen from hkind) (by simp)
              (hobject.sound token hmem herror) herror
        · have hplaced := hobject.again ending distance behind hbehind
          rw [placed_cons] at hplaced
          simp [argument, placed_cons, hbrace, hplaced, expect, hkind, bind, Except.bind]
      · next hbrace =>
        split at h
        · next hliteral =>
          cases h
          obtain ⟨close, htokens, hkind⟩ := eq_cons_of_kindAt hliteral.2 (by simp)
          refine ⟨fun token hmem herror => ?_, fun ending distance behind hbehind => ?_⟩
          · obtain rfl | hmem := List.mem_cons.mp hmem
            · simp [herror] at hliteral
            · exact sound_tail hliteral.2 (by simp) hmem herror
          · rw [htokens, placed_cons, placed_cons]
            simp [argument, hliteral.1, kindAt, hkind]
        · next hliteral =>
          obtain ⟨⟨text, last⟩, hread, h⟩ := exists_ok_of_bind h
          cases h
          have hraw := steady_rawArgument other hread
          refine ⟨hraw.sound, fun ending distance behind hbehind => ?_⟩
          have hplaced := hraw.again ending distance behind hbehind
          have hnot : ¬(token.kind = .string ∧ kindAt (placed distance behind tokens) = .rParen) :=
            fun h => hliteral ⟨h.1, (kindAt_placed hbehind _ _ (by simp) (by simp)).mp h.2⟩
          rw [placed_cons] at hplaced ⊢
          rw [argument, if_neg (by simpa using hbrace), if_neg (by simpa using hnot), hplaced]
          rfl

-- Behind the key, a parenthesis decides whether it has an argument.
theorem item_of_key {name : List Char} {after : List Token}
    (hkind : kindAt tokens = .ident ∨ kindAt tokens = .colonColon)
    (hread : key ending tokens = .ok (name, after)) :
    item ending tokens =
      if kindAt after = .lParen then
        argument ending (after.headD ending) (String.ofList name) after.tail
      else .ok ([Piece.marker (String.ofList name)], after) := by
  obtain hkind | hkind := hkind <;> simp only [item, hkind, hread, bind, Except.bind] <;>
    cases after <;> simp [kindAt]

theorem steady_of_key {name : List Char} {after : List Token} {pieces : List Piece}
    (hkind : kindAt tokens = .ident ∨ kindAt tokens = .colonColon)
    (hread : key ending tokens = .ok (name, after))
    (h : item ending tokens = .ok (pieces, rest)) : Steady item tokens rest pieces := by
  have hkey := steady_key hread
  have hsame {ending : Token} {distance : Nat} {behind : List Token}
      (hbehind : EndsItem behind) :=
    @item_of_key ending (placed distance behind tokens) name (placed distance behind after)
      (hkind.imp (kindAt_placed hbehind distance tokens (by simp) (by simp)).mpr
        (kindAt_placed hbehind distance tokens (by simp) (by simp)).mpr)
      (hkey.again ending distance behind hbehind)
  rw [item_of_key hkind hread] at h
  by_cases hopening : kindAt after = .lParen
  · obtain ⟨opening, inner, rfl⟩ := List.exists_cons_of_ne_nil (ne_nil_of_kindAt hopening (by simp))
    rw [if_pos hopening] at h
    refine ⟨fun token hmem herror => ?_, fun ending distance behind hbehind => ?_⟩
    · exact (steady_argument opening h).sound token
        (sound_tail hopening (by simp) (hkey.sound token hmem herror) herror) herror
    · rw [hsame hbehind, if_pos ((kindAt_placed hbehind _ _ (by simp) (by simp)).mpr hopening)]
      exact (steady_argument (opening.moved distance) h).again ending distance behind hbehind
  · rw [if_neg hopening] at h
    cases h
    refine ⟨hkey.sound, fun ending distance behind hbehind => ?_⟩
    rw [hsame hbehind, if_neg (mt (kindAt_placed hbehind _ _ (by simp) (by simp)).mp hopening)]

theorem steady_item {pieces : List Piece} (h : item ending tokens = .ok (pieces, rest)) :
    Steady item tokens rest pieces := by
  have hread := h
  rw [item] at hread
  split at hread
  · next hbrace =>
    have hobject := steady_object hread
    refine ⟨fun token hmem herror => ?_, fun ending distance behind hbehind => ?_⟩
    · exact hobject.sound token (sound_tail hbrace (by simp) hmem herror) herror
    · rw [item, (kindAt_placed hbehind _ _ (by simp) (by simp)).mpr hbrace,
        placed_tail _ _ (ne_nil_of_kindAt hbrace (by simp))]
      exact hobject.again ending distance behind hbehind
  · next hname =>
    obtain ⟨⟨name, after⟩, hkey, -⟩ := exists_ok_of_bind hread
    exact steady_of_key (.inl hname) hkey h
  · next hqualified =>
    obtain ⟨⟨name, after⟩, hkey, -⟩ := exists_ok_of_bind hread
    exact steady_of_key (.inr hqualified) hkey h
  · cases hread

end Readers

end Reflection.Metadata
