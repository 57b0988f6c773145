import Reflection.Proofs.Metadata.Lexemes
import Reflection.Proofs.Outcomes

namespace Reflection.Metadata

open Attribute

-- Every bracket is closed, the inner ones first, by a bracket that `closes` allows.
inductive Nested (closes : TokenKind → TokenKind → Prop) : List Token → Prop where
  | nil : Nested closes []
  | token {token : Token} {rest : List Token} (hopening : isOpening token.kind = false)
      (hclosing : isClosing token.kind = false) (hrest : Nested closes rest) :
      Nested closes (token :: rest)
  | group {opening close : Token} {inner rest : List Token}
      (hopening : isOpening opening.kind = true) (hclosing : isClosing close.kind = true)
      (hcloses : closes opening.kind close.kind) (hinner : Nested closes inner)
      (hrest : Nested closes rest) : Nested closes (opening :: (inner ++ close :: rest))

def OwnKind (opening close : TokenKind) : Prop := close = closing opening

def AnyKind (_opening _close : TokenKind) : Prop := True

-- The entries of an object. Their only brackets are those of nested values.
inductive EntriesNested (closes : TokenKind → TokenKind → Prop) : List Token → Prop where
  | nil : EntriesNested closes []
  | token {token : Token} {rest : List Token} (hopening : isOpening token.kind = false)
      (hclosing : isClosing token.kind = false) (hrest : EntriesNested closes rest) :
      EntriesNested closes (token :: rest)
  | value {sign opening close : Token} {inner rest : List Token}
      (hsign : sign.kind = .colon ∨ sign.kind = .eq)
      (hopening : opening.kind = .lBrace ∨ opening.kind = .lBracket)
      (hclosing : isClosing close.kind = true) (hcloses : closes opening.kind close.kind)
      (hinner : Nested closes inner) (hrest : EntriesNested closes rest) :
      EntriesNested closes (sign :: opening :: (inner ++ close :: rest))

-- Items with brackets that are closed by their own kind. Only for those of nested values of
-- objects, `closes` says by which.
inductive ItemsNested (closes : TokenKind → TokenKind → Prop) : List Token → Prop where
  | nil : ItemsNested closes []
  | token {token : Token} {rest : List Token} (hopening : isOpening token.kind = false)
      (hclosing : isClosing token.kind = false) (hrest : ItemsNested closes rest) :
      ItemsNested closes (token :: rest)
  | raw {opening close : Token} {inner rest : List Token} (hopening : opening.kind = .lParen)
      (hclose : close.kind = .rParen) (hinner : Nested OwnKind inner)
      (hrest : ItemsNested closes rest) : ItemsNested closes (opening :: (inner ++ close :: rest))
  | object {brace close : Token} {entries rest : List Token} (hbrace : brace.kind = .lBrace)
      (hclose : close.kind = .rBrace) (hentries : EntriesNested closes entries)
      (hrest : ItemsNested closes rest) : ItemsNested closes (brace :: (entries ++ close :: rest))
  | splice {opening brace closeBrace close : Token} {entries rest : List Token}
      (hopening : opening.kind = .lParen) (hbrace : brace.kind = .lBrace)
      (hcloseBrace : closeBrace.kind = .rBrace) (hclose : close.kind = .rParen)
      (hentries : EntriesNested closes entries) (hrest : ItemsNested closes rest) :
      ItemsNested closes (opening :: brace :: (entries ++ closeBrace :: close :: rest))

section Nesting

variable {closes others : TokenKind → TokenKind → Prop} {inner rest tokens : List Token}
  {opening close : Token}

theorem isClosing_of_isOpening {kind : TokenKind} (h : isOpening kind = true) :
    isClosing kind = false := by
  cases kind <;> simp_all [isOpening, isClosing]

theorem Nested.mono (h : Nested closes tokens)
    (hmono : ∀ opened closed, closes opened closed → others opened closed) :
    Nested others tokens := by
  induction h with
  | nil => exact .nil
  | token hopening hclosing _ ih => exact .token hopening hclosing ih
  | group hopening hclosing hcloses _ _ ihinner ihrest =>
      exact .group hopening hclosing (hmono _ _ hcloses) ihinner ihrest

theorem Nested.any (h : Nested closes tokens) : Nested AnyKind tokens :=
  h.mono fun _ _ _ => trivial

-- A bracket is closed at one place only, whatever kinds of brackets may close which.
theorem Nested.closed_unique (h : Nested closes inner) {inner' rest' : List Token} {close' : Token}
    (h' : Nested others inner') (hclosing : isClosing close.kind = true)
    (hclosing' : isClosing close'.kind = true)
    (heq : inner ++ close :: rest = inner' ++ close' :: rest') :
    inner = inner' ∧ close = close' ∧ rest = rest' := by
  induction h generalizing inner' close' close rest rest' with
  | nil =>
      cases h' with
      | nil => simpa using heq
      | token _ hplain _ =>
          obtain ⟨rfl, -⟩ := List.cons.inj heq
          simp [hclosing] at hplain
      | group hopens _ _ _ _ =>
          obtain ⟨rfl, -⟩ := List.cons.inj heq
          simp [isClosing_of_isOpening hopens] at hclosing
  | @token token tokens hnot hplain _ ih =>
      cases h' with
      | nil =>
          obtain ⟨rfl, -⟩ := List.cons.inj heq
          simp [hclosing'] at hplain
      | token _ _ hrest' =>
          obtain ⟨rfl, htail⟩ := List.cons.inj heq
          obtain ⟨hsame, hclose⟩ := ih hrest' hclosing hclosing' htail
          exact ⟨congrArg _ hsame, hclose⟩
      | group hopens _ _ _ _ =>
          obtain ⟨rfl, -⟩ := List.cons.inj heq
          simp [hopens] at hnot
  | @group opening first tokens more hopens hfirst _ _ _ ihinner ihrest =>
      cases h' with
      | nil =>
          obtain ⟨rfl, -⟩ := List.cons.inj heq
          simp [isClosing_of_isOpening hopens] at hclosing'
      | token hnot _ _ =>
          obtain ⟨rfl, -⟩ := List.cons.inj heq
          simp [hopens] at hnot
      | group _ hfirst' _ hinner' hrest' =>
          simp only [List.cons_append, List.append_assoc, List.cons.injEq] at heq
          obtain ⟨rfl, rfl, htail⟩ := ihinner hinner' hfirst hfirst' heq.2
          obtain ⟨rfl, hsame⟩ := ihrest hrest' hclosing hclosing' htail
          exact ⟨by rw [heq.1], hsame⟩

theorem Nested.of_token {token : Token} (h : Nested closes (token :: rest))
    (hopening : isOpening token.kind = false) : Nested closes rest := by
  cases h with
  | token _ _ hrest => exact hrest
  | group hopens => simp [hopening] at hopens

-- Where a bracket is closed can be told from counting brackets alone.
theorem Nested.of_group (h : Nested closes (opening :: (inner ++ close :: rest)))
    (hopening : isOpening opening.kind = true) (hclosing : isClosing close.kind = true)
    (hinner : Nested others inner) :
    closes opening.kind close.kind ∧ Nested closes inner ∧ Nested closes rest := by
  generalize htokens : inner ++ close :: rest = tokens at h
  cases h with
  | token hnot => simp [hopening] at hnot
  | group _ hclosing' hcloses hinner' hrest' =>
      obtain ⟨rfl, rfl, rfl⟩ := hinner.closed_unique hinner' hclosing hclosing' htokens
      exact ⟨hcloses, hinner', hrest'⟩

-- Brackets of one kind, as they stand around arguments and objects.
def IsPair (opening close : Token) : Prop :=
  opening.kind = .lParen ∧ close.kind = .rParen ∨ opening.kind = .lBrace ∧ close.kind = .rBrace

theorem IsPair.kinds (h : IsPair opening close) :
    isOpening opening.kind = true ∧ isClosing close.kind = true ∧
      OwnKind opening.kind close.kind := by
  rcases h with ⟨hopening, hclose⟩ | ⟨hopening, hclose⟩ <;> rw [hopening, hclose] <;>
    exact ⟨rfl, rfl, rfl⟩

theorem IsPair.group (h : IsPair opening close)
    (hown : ∀ opened closed, OwnKind opened closed → closes opened closed)
    (hinner : Nested closes inner) (hrest : Nested closes rest) :
    Nested closes (opening :: (inner ++ close :: rest)) :=
  .group h.kinds.1 h.kinds.2.1 (hown _ _ h.kinds.2.2) hinner hrest

theorem IsPair.of_group (h : IsPair opening close)
    (hgroup : Nested closes (opening :: (inner ++ close :: rest))) (hinner : Nested others inner) :
    Nested closes inner ∧ Nested closes rest :=
  (hgroup.of_group h.kinds.1 h.kinds.2.1 hinner).2

end Nesting

section Items

variable {closes : TokenKind → TokenKind → Prop} {tokens more : List Token}

theorem isOpening_of_value {kind : TokenKind} (h : kind = .lBrace ∨ kind = .lBracket) :
    isOpening kind = true := by
  rcases h with rfl | rfl <;> rfl

theorem plain_of_sign {kind : TokenKind} (h : kind = .colon ∨ kind = .eq) :
    isOpening kind = false ∧ isClosing kind = false := by
  rcases h with rfl | rfl <;> exact ⟨rfl, rfl⟩

theorem EntriesNested.append (h : EntriesNested closes tokens) (hmore : EntriesNested closes more) :
    EntriesNested closes (tokens ++ more) := by
  induction h with
  | nil => exact hmore
  | token hopening hclosing _ ih => exact .token hopening hclosing ih
  | value hsign hopening hclosing hcloses hinner _ ih =>
      rw [List.cons_append, List.cons_append, List.append_assoc, List.cons_append]
      exact .value hsign hopening hclosing hcloses hinner ih

theorem ItemsNested.append (h : ItemsNested closes tokens) (hmore : ItemsNested closes more) :
    ItemsNested closes (tokens ++ more) := by
  induction h with
  | nil => exact hmore
  | token hopening hclosing _ ih => exact .token hopening hclosing ih
  | raw hopening hclose hinner _ ih =>
      rw [List.cons_append, List.append_assoc, List.cons_append]
      exact .raw hopening hclose hinner ih
  | object hbrace hclose hentries _ ih =>
      rw [List.cons_append, List.append_assoc, List.cons_append]
      exact .object hbrace hclose hentries ih
  | splice hopening hbrace hcloseBrace hclose hentries _ ih =>
      rw [List.cons_append, List.cons_append, List.append_assoc, List.cons_append,
        List.cons_append]
      exact .splice hopening hbrace hcloseBrace hclose hentries ih

theorem ItemsNested.of_plain
    (h : ∀ token ∈ tokens, isOpening token.kind = false ∧ isClosing token.kind = false) :
    ItemsNested closes tokens := by
  induction tokens with
  | nil => exact .nil
  | cons token tokens ih =>
      rw [List.forall_mem_cons] at h
      exact .token h.1.1 h.1.2 (ih h.2)

theorem EntriesNested.nested (h : EntriesNested closes tokens) : Nested closes tokens := by
  induction h with
  | nil => exact .nil
  | token hopening hclosing _ ih => exact .token hopening hclosing ih
  | value hsign hopening hclosing hcloses hinner _ ih =>
      obtain ⟨hnot, hplain⟩ := plain_of_sign hsign
      exact .token hnot hplain (.group (isOpening_of_value hopening) hclosing hcloses hinner ih)

theorem ItemsNested.nested (hown : ∀ opened closed, OwnKind opened closed → closes opened closed)
    (h : ItemsNested closes tokens) : Nested closes tokens := by
  induction h with
  | nil => exact .nil
  | token hopening hclosing _ ih => exact .token hopening hclosing ih
  | raw hopening hclose hinner _ ih =>
      exact IsPair.group (.inl ⟨hopening, hclose⟩) hown (hinner.mono hown) ih
  | object hbrace hclose hentries _ ih =>
      exact IsPair.group (.inr ⟨hbrace, hclose⟩) hown hentries.nested ih
  | @splice opening brace closeBrace close entries rest hopening hbrace hcloseBrace hclose hentries
      _ ih =>
      have hinner : Nested closes (brace :: (entries ++ [closeBrace])) :=
        IsPair.group (.inr ⟨hbrace, hcloseBrace⟩) hown hentries.nested .nil
      have hgroup : Nested closes
          (opening :: (brace :: (entries ++ [closeBrace]) ++ close :: rest)) :=
        IsPair.group (.inl ⟨hopening, hclose⟩) hown hinner ih
      simpa using hgroup

-- If all brackets of an object are closed by their own kind, so are those of its values.
theorem EntriesNested.own (h : EntriesNested closes tokens) (hown : Nested OwnKind tokens) :
    EntriesNested OwnKind tokens := by
  induction h with
  | nil => exact .nil
  | token hopening hclosing _ ih => exact .token hopening hclosing (ih (hown.of_token hopening))
  | value hsign hopening hclosing _ hinner _ ih =>
      have hgroup := hown.of_token (plain_of_sign hsign).1
      obtain ⟨hcloses, hinner', hrest⟩ :=
        hgroup.of_group (isOpening_of_value hopening) hclosing hinner
      exact .value hsign hopening hclosing hcloses hinner' (ih hrest)

theorem ItemsNested.own (h : ItemsNested closes tokens) (hown : Nested OwnKind tokens) :
    ItemsNested OwnKind tokens := by
  induction h with
  | nil => exact .nil
  | token hopening hclosing _ ih => exact .token hopening hclosing (ih (hown.of_token hopening))
  | raw hopening hclose hinner _ ih =>
      obtain ⟨-, hrest⟩ := IsPair.of_group (.inl ⟨hopening, hclose⟩) hown hinner
      exact .raw hopening hclose hinner (ih hrest)
  | object hbrace hclose hentries _ ih =>
      obtain ⟨hinner, hrest⟩ := IsPair.of_group (.inr ⟨hbrace, hclose⟩) hown hentries.nested
      exact .object hbrace hclose (hentries.own hinner) (ih hrest)
  | @splice opening brace closeBrace close entries rest hopening hbrace hcloseBrace hclose hentries
      _ ih =>
      have hbraces : IsPair brace closeBrace := .inr ⟨hbrace, hcloseBrace⟩
      have hinner : Nested AnyKind (brace :: (entries ++ [closeBrace])) :=
        hbraces.group (fun _ _ _ => trivial) hentries.nested.any .nil
      have hgroup : Nested OwnKind
          (opening :: (brace :: (entries ++ [closeBrace]) ++ close :: rest)) := by
        simpa using hown
      obtain ⟨hwithin, hrest⟩ := IsPair.of_group (.inl ⟨hopening, hclose⟩) hgroup hinner
      obtain ⟨hentries', -⟩ := hbraces.of_group hwithin hentries.nested
      exact .splice hopening hbrace hcloseBrace hclose (hentries.own hentries') (ih hrest)

end Items

section Readers

variable {closes : TokenKind → TokenKind → Prop} {ending opening : Token}
  {tokens rest taken : List Token} {text found : List Char}

-- Tokens that close what has been opened, the innermost bracket first, and end with the last one.
inductive Closes (closes : TokenKind → TokenKind → Prop) :
    List TokenKind → List Token → Prop where
  | nil : Closes closes [] []
  | cons {opened : TokenKind} {more : List TokenKind} {inner rest : List Token} {close : Token}
      (hinner : Nested closes inner) (hclosing : isClosing close.kind = true)
      (hcloses : closes opened close.kind) (hrest : Closes closes more rest) :
      Closes closes (opened :: more) (inner ++ close :: rest)

namespace Closes

variable {opened : TokenKind} {more : List TokenKind} {first : Token}

theorem plain (h : Closes closes (opened :: more) taken) (hopening : isOpening first.kind = false)
    (hclosing : isClosing first.kind = false) :
    Closes closes (opened :: more) (first :: taken) := by
  cases h with
  | cons hinner hcloses hkind hrest =>
      exact .cons (.token hopening hclosing hinner) hcloses hkind hrest

theorem group (h : Closes closes (first.kind :: opened :: more) taken)
    (hopening : isOpening first.kind = true) : Closes closes (opened :: more) (first :: taken) := by
  cases h with
  | @cons _ _ inner _ close hinner hclosing hcloses hrest =>
      cases hrest with
      | @cons _ _ next rest last hnext hlast hkind hrest =>
          have hgroup : Nested closes (first :: (inner ++ close :: next)) :=
            .group hopening hclosing hcloses hinner hnext
          have htaken : first :: (inner ++ close :: (next ++ last :: rest)) =
              first :: (inner ++ close :: next) ++ last :: rest := by simp
          rw [htaken]
          exact .cons hgroup hlast hkind hrest

theorem close (h : Closes closes more taken) (hclosing : isClosing first.kind = true)
    (hcloses : closes opened first.kind) : Closes closes (opened :: more) (first :: taken) :=
  @cons _ _ _ [] _ _ .nil hclosing hcloses h

end Closes

-- The brackets of an argument list are closed by their own kind.
theorem closes_of_rawArgument {opened : TokenKind} {more expected : List TokenKind}
    (hexpected : expected = (opened :: more).map closing)
    (h : rawArgument ending opening expected text tokens = .ok (found, rest)) :
    ∃ taken, tokens = taken ++ rest ∧ Closes OwnKind (opened :: more) taken := by
  fun_induction rawArgument generalizing opened more with
  | case1 => cases h
  | case2 => cases h
  | case3 expected text token tokens herror hopening ih =>
      obtain ⟨taken, rfl, hcloses⟩ := @ih _ (opened :: more) (by rw [hexpected]; rfl) h
      exact ⟨token :: taken, rfl, hcloses.group hopening⟩
  | case4 => cases h
  | case5 expected text token tokens herror hopening hclosing hhead htail =>
      cases h
      have hown : OwnKind opened token.kind := by
        simpa [OwnKind, hexpected, eq_comm] using hhead
      have hnil : more = [] := by simpa [hexpected] using htail
      subst hnil
      exact ⟨[token], rfl, Closes.nil.close hclosing hown⟩
  | case6 expected text token tokens herror hopening hclosing hhead htail ih =>
      have hown : OwnKind opened token.kind := by
        simpa [OwnKind, hexpected, eq_comm] using hhead
      cases more with
      | nil => simp [hexpected] at htail
      | cons next more =>
          obtain ⟨taken, rfl, hcloses⟩ := ih (by rw [hexpected]; rfl) h
          exact ⟨token :: taken, rfl, hcloses.close hclosing hown⟩
  | case7 expected text token tokens herror hopening hclosing ih =>
      obtain ⟨taken, rfl, hcloses⟩ := ih hexpected h
      exact ⟨token :: taken, rfl, hcloses.plain (by simpa using hopening) (by simpa using hclosing)⟩

-- Those of a nested value are closed by some bracket.
theorem closes_of_nestedValue {opened : TokenKind} {more : List TokenKind} {depth : Nat}
    (hdepth : depth = more.length + 1)
    (h : nestedValue ending opening depth text tokens = .ok (found, rest)) :
    ∃ taken, tokens = taken ++ rest ∧ Closes AnyKind (opened :: more) taken := by
  fun_induction nestedValue generalizing opened more with
  | case1 => cases h
  | case2 => cases h
  | case3 depth _ token tokens _ herror hopening =>
      rename_i ih
      obtain ⟨taken, rfl, hcloses⟩ := @ih _ (opened :: more) (by rw [hdepth]; rfl) h
      exact ⟨token :: taken, rfl, hcloses.group hopening⟩
  | case4 depth _ token tokens _ herror hopening hclosing =>
      rename_i hlast
      obtain ⟨-, rfl⟩ := Prod.mk.inj (Except.ok.inj h)
      have hnil : more = [] := List.length_eq_zero_iff.mp (by omega)
      subst hnil
      exact ⟨[token], rfl, Closes.nil.close hclosing trivial⟩
  | case5 depth _ token tokens _ herror hopening hclosing hlast =>
      rename_i ih
      cases more with
      | nil =>
          rw [List.length_nil] at hdepth
          omega
      | cons next more =>
          rw [List.length_cons] at hdepth
          obtain ⟨taken, rfl, hcloses⟩ := @ih next more (by omega) h
          exact ⟨token :: taken, rfl, hcloses.close hclosing trivial⟩
  | case6 depth _ token tokens _ herror hopening hclosing =>
      rename_i ih
      obtain ⟨taken, rfl, hcloses⟩ := ih hdepth h
      exact ⟨token :: taken, rfl, hcloses.plain (by simpa using hopening) (by simpa using hclosing)⟩

theorem eq_cons_of_kindAt {kind : TokenKind} (h : kindAt tokens = kind) (hkind : kind ≠ .eof) :
    ∃ token, tokens = token :: tokens.tail ∧ token.kind = kind := by
  cases tokens with
  | nil => exact absurd h.symm hkind
  | cons token tokens => exact ⟨token, rfl, h⟩

theorem eq_cons_of_expect {kind : TokenKind} {token : Token}
    (h : expect ending kind tokens = .ok (token, rest)) :
    tokens = token :: rest ∧ token.kind = kind := by
  cases tokens with
  | nil => cases h
  | cons first tokens =>
      rw [expect] at h
      split at h
      · next hkind =>
        cases h
        exact ⟨rfl, hkind⟩
      · cases h

theorem plain_of_moreNames (tokens : List Token) :
    ∃ taken, tokens = taken ++ (moreNames tokens).2 ∧
      ∀ token ∈ taken, isOpening token.kind = false ∧ isClosing token.kind = false := by
  fun_induction moreNames with
  | case1 separator name rest hkinds =>
      rename_i ih
      obtain ⟨taken, htaken, hplain⟩ := ih
      refine ⟨separator :: name :: taken, congrArg (separator :: name :: ·) htaken, ?_⟩
      rw [List.forall_mem_cons, List.forall_mem_cons, hkinds.1, hkinds.2]
      exact ⟨⟨rfl, rfl⟩, ⟨rfl, rfl⟩, hplain⟩
  | case2 => exact ⟨[], rfl, by simp⟩
  | case3 => exact ⟨[], rfl, by simp⟩

theorem plain_of_key (h : key ending tokens = .ok (found, rest)) :
    ∃ taken, tokens = taken ++ rest ∧
      ∀ token ∈ taken, isOpening token.kind = false ∧ isClosing token.kind = false := by
  simp only [key, bind, Except.bind] at h
  split at h
  · cases h
  next read hread =>
  obtain ⟨hnames, hname⟩ := eq_cons_of_expect hread
  obtain ⟨taken, htaken, hplain⟩ := plain_of_moreNames read.2
  have hrest : (moreNames read.2).2 = rest := congrArg Prod.snd (Except.ok.inj h)
  have hall : ∀ token ∈ read.1 :: taken,
      isOpening token.kind = false ∧ isClosing token.kind = false := by
    rw [List.forall_mem_cons, hname]
    exact ⟨⟨rfl, rfl⟩, hplain⟩
  rw [hrest] at htaken
  by_cases hqualified : kindAt tokens = .colonColon
  · obtain ⟨separator, htokens, hkind⟩ := eq_cons_of_kindAt hqualified (by simp)
    rw [if_pos (by simpa using hqualified), htaken] at hnames
    refine ⟨separator :: read.1 :: taken, by rw [htokens, hnames]; rfl, ?_⟩
    rw [List.forall_mem_cons, hkind]
    exact ⟨⟨rfl, rfl⟩, hall⟩
  · rw [if_neg (by simpa using hqualified), htaken] at hnames
    exact ⟨read.1 :: taken, hnames, hall⟩

-- Behind its sign, a value is nested by itself.
theorem nested_of_value {sign : Token} (hsign : sign.kind = .colon ∨ sign.kind = .eq)
    (h : value ending tokens = .ok (found, rest)) :
    ∃ taken, tokens = taken ++ rest ∧ EntriesNested AnyKind (sign :: taken) := by
  obtain ⟨hnot, hplain⟩ := plain_of_sign hsign
  cases tokens with
  | nil => cases h
  | cons token tokens =>
      have hgroup (hopening : token.kind = .lBrace ∨ token.kind = .lBracket)
          (h : nestedValue ending token 1 token.text tokens = .ok (found, rest)) :
          ∃ taken, token :: tokens = taken ++ rest ∧ EntriesNested AnyKind (sign :: taken) := by
        obtain ⟨taken, rfl, hcloses⟩ := @closes_of_nestedValue _ _ _ _ _ _ token.kind [] _ rfl h
        cases hcloses with
        | cons hinner hclosing hcloses hrest =>
            cases hrest
            exact ⟨_, rfl, .value hsign hopening hclosing hcloses hinner .nil⟩
      have hsingle (hopening : isOpening token.kind = false)
          (hclosing : isClosing token.kind = false) (hrest : tokens = rest) :
          ∃ taken, token :: tokens = taken ++ rest ∧ EntriesNested AnyKind (sign :: taken) :=
        ⟨[token], by rw [hrest]; rfl, .token hnot hplain (.token hopening hclosing .nil)⟩
      rw [value] at h
      split at h
      · next hkind =>
        cases h
        exact hsingle (by simp [hkind, isOpening]) (by simp [hkind, isClosing]) rfl
      · next hkind =>
        cases h
        exact hsingle (by simp [hkind, isOpening]) (by simp [hkind, isClosing]) rfl
      · next hkind =>
        cases h
        exact hsingle (by simp [hkind, isOpening]) (by simp [hkind, isClosing]) rfl
      · next hkind => exact hgroup (.inl hkind) h
      · next hkind => exact hgroup (.inr hkind) h
      · cases h

theorem plain_of_objectKey (h : objectKey ending tokens = .ok (found, rest)) :
    ∃ token, tokens = token :: rest ∧ isOpening token.kind = false ∧
      isClosing token.kind = false := by
  cases tokens with
  | nil => cases h
  | cons token tokens =>
      rw [objectKey] at h
      split at h
      · next hkind =>
        cases h
        exact ⟨token, rfl, by simp [hkind, isOpening], by simp [hkind, isClosing]⟩
      · next hkind =>
        cases h
        exact ⟨token, rfl, by simp [hkind, isOpening], by simp [hkind, isClosing]⟩
      · cases h

theorem nested_of_entry {piece : Piece} (h : entry ending tokens = .ok (piece, rest)) :
    ∃ taken, tokens = taken ++ rest ∧ EntriesNested AnyKind taken := by
  simp only [entry, bind, Except.bind] at h
  split at h
  · cases h
  next read hread =>
  obtain ⟨name, rfl, hopening, hclosing⟩ := plain_of_objectKey hread
  split at h
  · next sign after hafter =>
    split at h
    · next hsign =>
      split at h
      · cases h
      · next last hvalue =>
        obtain ⟨taken, rfl, hnested⟩ := nested_of_value hsign hvalue
        cases h
        exact ⟨name :: sign :: taken, by rw [hafter]; rfl, .token hopening hclosing hnested⟩
    · cases h
  · cases h

theorem nested_of_object {pieces : List Piece} (h : object ending tokens = .ok (pieces, rest)) :
    ∃ entries close, tokens = entries ++ close :: rest ∧ close.kind = .rBrace ∧
      EntriesNested AnyKind entries := by
  fun_induction object generalizing pieces rest with
  | case1 tokens hbrace =>
      obtain ⟨close, htokens, hclose⟩ := eq_cons_of_kindAt hbrace (by simp)
      cases h
      exact ⟨[], close, htokens, hclose, .nil⟩
  | case2 => cases h
  | case3 tokens _ piece after hentry _ hcomma ih =>
      obtain ⟨taken, rfl, hnested⟩ := nested_of_entry hentry
      obtain ⟨comma, hafter, hkind⟩ := eq_cons_of_kindAt hcomma (by simp)
      cases hobject : object ending after.tail with
      | error _ =>
          rw [hobject] at h
          cases h
      | ok read =>
          rw [hobject] at h
          cases h
          obtain ⟨entries, close, htail, hclose, hentries⟩ := ih hobject
          refine ⟨taken ++ comma :: entries, close, ?_, hclose, hnested.append ?_⟩
          · rw [hafter, htail, List.append_assoc]
            rfl
          · exact .token (by simp [hkind, isOpening]) (by simp [hkind, isClosing]) hentries
  | case4 tokens _ piece after hentry _ hbrace =>
      obtain ⟨taken, rfl, hnested⟩ := nested_of_entry hentry
      obtain ⟨close, hafter, hclose⟩ := eq_cons_of_kindAt hbrace (by simp)
      cases h
      exact ⟨taken, close, by rw [← hafter], hclose, hnested⟩
  | case5 => cases h

theorem nested_of_argument {name : String} {pieces : List Piece}
    (hopening : opening.kind = .lParen)
    (h : argument ending opening name tokens = .ok (pieces, rest)) :
    ∃ taken, tokens = taken ++ rest ∧ ItemsNested AnyKind (opening :: taken) := by
  have hraw {tokens : List Token} {text : List Char}
      (h : rawArgument ending opening [.rParen] [] tokens = .ok (text, rest)) :
      ∃ taken, tokens = taken ++ rest ∧ ItemsNested AnyKind (opening :: taken) := by
    obtain ⟨taken, rfl, hcloses⟩ := @closes_of_rawArgument _ _ _ _ _ _ .lParen [] _ rfl h
    cases hcloses with
    | cons hinner _ hown hrest =>
        cases hrest
        exact ⟨_, rfl, .raw hopening hown hinner .nil⟩
  cases tokens with
  | nil => cases h
  | cons token tokens =>
      simp only [argument, bind, Except.bind] at h
      split at h
      · next hbrace =>
        split at h
        · cases h
        next read hread =>
        obtain ⟨entries, closeBrace, htokens, hcloseBrace, hentries⟩ := nested_of_object hread
        split at h
        · cases h
        next last hlast =>
        obtain ⟨hrest, hclose⟩ := eq_cons_of_expect hlast
        cases h
        refine ⟨token :: (entries ++ closeBrace :: [last.1]), ?_,
          .splice hopening hbrace hcloseBrace hclose hentries .nil⟩
        rw [htokens, hrest]
        simp
      split at h
      · next hliteral =>
        obtain ⟨close, htokens, hclose⟩ := eq_cons_of_kindAt hliteral.2 (by simp)
        cases h
        have hinner : Nested OwnKind [token] :=
          .token (by simp [hliteral.1, isOpening]) (by simp [hliteral.1, isClosing]) .nil
        exact ⟨[token, close], by rw [htokens]; rfl, .raw hopening hclose hinner .nil⟩
      · split at h
        · cases h
        next read hread =>
        cases h
        exact hraw hread

theorem nested_of_keyed {name : String} {pieces : List Piece}
    (h : (match tokens with
      | opening :: inner =>
        if opening.kind = TokenKind.lParen then argument ending opening name inner
        else .ok ([Piece.marker name], tokens)
      | [] => .ok ([Piece.marker name], tokens)) = .ok (pieces, rest)) :
    ∃ taken, tokens = taken ++ rest ∧ ItemsNested AnyKind taken := by
  split at h
  · next opening inner =>
    split at h
    · next hopening =>
      obtain ⟨taken, rfl, hnested⟩ := nested_of_argument hopening h
      exact ⟨opening :: taken, rfl, hnested⟩
    · cases h
      exact ⟨[], rfl, .nil⟩
  · cases h
    exact ⟨[], rfl, .nil⟩

theorem nested_of_item {pieces : List Piece} (h : item ending tokens = .ok (pieces, rest)) :
    ∃ taken, tokens = taken ++ rest ∧ ItemsNested AnyKind taken := by
  have hkeyed {read : List Char × List Token} (hread : key ending tokens = .ok read)
      (h : ∃ taken, read.2 = taken ++ rest ∧ ItemsNested AnyKind taken) :
      ∃ taken, tokens = taken ++ rest ∧ ItemsNested AnyKind taken := by
    obtain ⟨names, htokens, hplain⟩ := plain_of_key hread
    obtain ⟨taken, hrest, hnested⟩ := h
    rw [hrest, ← List.append_assoc] at htokens
    exact ⟨names ++ taken, htokens, (ItemsNested.of_plain hplain).append hnested⟩
  simp only [item, bind, Except.bind] at h
  split at h
  · next hbrace =>
    obtain ⟨brace, htokens, hkind⟩ := eq_cons_of_kindAt hbrace (by simp)
    obtain ⟨entries, close, htail, hclose, hentries⟩ := nested_of_object h
    refine ⟨brace :: (entries ++ [close]), ?_, .object hkind hclose hentries .nil⟩
    rw [htokens, htail]
    simp
  · split at h
    · cases h
    · next hread => exact hkeyed hread (nested_of_keyed h)
  · split at h
    · cases h
    · next hread => exact hkeyed hread (nested_of_keyed h)
  · cases h

theorem items_cases {pieces : List Piece} (h : items ending tokens = .ok pieces) :
    tokens = [] ∨ ∃ found rest, item ending tokens = .ok (found, rest) ∧
      (rest = [] ∨ ∃ separator more others, rest = separator :: more ∧
        separator.kind = .comma ∧ items ending more = .ok others) := by
  rw [items] at h
  split at h
  · next hnil => exact .inl (List.isEmpty_iff.mp hnil)
  split at h
  · cases h
  next found rest hitem =>
  refine .inr ⟨found, rest, hitem, ?_⟩
  cases rest with
  | nil => exact .inl rfl
  | cons separator more =>
      dsimp only at h
      split at h
      · next hcomma =>
        cases hmore : items ending more with
        | error _ =>
            rw [hmore] at h
            cases h
        | ok others => exact .inr ⟨separator, more, others, rfl, hcomma, hmore⟩
      · cases h

-- Items that are read one after the other, with a comma behind each of them but perhaps the last.
inductive ItemsRead (ending : Token) : List Token → List Piece → Prop where
  | nil : ItemsRead ending [] []
  | last {tokens : List Token} {pieces : List Piece}
      (hitem : item ending tokens = .ok (pieces, [])) : ItemsRead ending tokens pieces
  | more {separator : Token} {tokens rest : List Token} {pieces others : List Piece}
      (hitem : item ending tokens = .ok (pieces, separator :: rest))
      (hseparator : separator.kind = .comma) (hrest : ItemsRead ending rest others) :
      ItemsRead ending tokens (pieces ++ others)

theorem items_nil : items ending [] = .ok [] := by rw [items, if_pos List.isEmpty_nil]

theorem itemsRead_of_items {pieces : List Piece} (h : items ending tokens = .ok pieces) :
    ItemsRead ending tokens pieces := by
  induction hlength : tokens.length using Nat.strong_induction_on generalizing tokens pieces with
  | h length ih =>
      obtain rfl | ⟨found, rest, hitem, hrest⟩ := items_cases h
      · rw [items_nil] at h
        cases h
        exact .nil
      have hless := item_length hitem
      obtain rfl | ⟨separator, more, others, rfl, hcomma, hmore⟩ := hrest
      · rw [items_of_last (by rintro rfl; cases hitem) hitem] at h
        cases h
        exact .last hitem
      · rw [List.length_cons] at hless
        rw [items_of_comma (by rintro rfl; cases hitem) hitem hcomma, hmore] at h
        cases h
        exact .more hitem hcomma (ih more.length (by omega) hmore rfl)

theorem nested_of_items {pieces : List Piece} (h : items ending tokens = .ok pieces) :
    ItemsNested AnyKind tokens := by
  have hread := itemsRead_of_items h
  clear h
  induction hread with
  | nil => exact .nil
  | last hitem =>
      obtain ⟨taken, rfl, hnested⟩ := nested_of_item hitem
      rwa [List.append_nil]
  | more hitem hseparator _ ih =>
      obtain ⟨taken, rfl, hnested⟩ := nested_of_item hitem
      exact hnested.append
        (.token (by simp [hseparator, isOpening]) (by simp [hseparator, isClosing]) ih)

end Readers

section Texts

variable {text : List Char}

theorem mem_trim {c : Char} (hmem : c ∈ text) :
    Text.isBlank c = true ∨ c ∈ Text.trim text := by
  have hdrop {text : List Char} (hmem : c ∈ text) :
      Text.isBlank c = true ∨ c ∈ text.dropWhile Text.isBlank := by
    rw [← List.takeWhile_append_dropWhile (p := Text.isBlank) (l := text), List.mem_append] at hmem
    exact hmem.imp_left List.mem_takeWhile_imp
  rcases hdrop hmem with hblank | hstart
  · exact .inl hblank
  · rw [Text.trim, Text.trimEnd, List.mem_reverse]
    exact hdrop (List.mem_reverse.mpr hstart)

def bracketChars : List Char := ['(', ')', '{', '}', '[', ']']

theorem plain_of_lexeme {c : Char} {rest : List Char} {kind : TokenKind} {extra : Nat}
    (h : Lexical.lexeme c rest = ⟨some kind, extra⟩) (hc : c ∉ bracketChars) :
    isOpening kind = false ∧ isClosing kind = false := by
  unfold Lexical.lexeme at h
  iterate 4
    split at h
    · cases h <;> exact ⟨rfl, rfl⟩
  split at h
  · unfold literalLexeme at h
    dsimp only at h
    split at h <;> cases h <;> exact ⟨rfl, rfl⟩
  all_goals first
    | exact absurd (by decide) hc
    | (cases h; exact ⟨rfl, rfl⟩)
    | (split at h <;> cases h <;> exact ⟨rfl, rfl⟩)

-- Without a bracket in the text there is none among its tokens.
theorem plain_of_scanFrom {start : Nat} {lead : List Char} (h : ∀ c ∈ text, c ∉ bracketChars) :
    ∀ token ∈ (scanFrom Lexical.lexeme .eof start lead text).items,
      isOpening token.kind = false ∧ isClosing token.kind = false := by
  fun_induction scanFrom Lexical.lexeme TokenKind.eof start lead text with
  | case1 => simp
  | case2 start lead c rest lexeme text next hnone =>
      rename_i ih
      exact ih fun d hd => h d (List.mem_cons_of_mem _ (List.mem_of_mem_drop hd))
  | case3 start lead c rest lexeme text next kind hsome =>
      rename_i ih
      have hlexeme : Lexical.lexeme c rest = ⟨some kind, lexeme.extra⟩ := by rw [← hsome]
      refine List.forall_mem_cons.mpr ⟨plain_of_lexeme hlexeme (h c List.mem_cons_self), ?_⟩
      exact ih fun d hd => h d (List.mem_cons_of_mem _ (List.mem_of_mem_drop hd))

theorem nested_of_ofAttributeText {pieces : List Piece} (h : ofAttributeText text = .ok pieces) :
    ItemsNested AnyKind (scan text).items := by
  rw [ofAttributeText] at h
  dsimp only at h
  split at h
  · next hempty =>
    have hplain : ∀ c ∈ text, c ∉ bracketChars := by
      intro c hc hbracket
      have hblank : Text.isBlank c = false := by
        rw [bracketChars] at hbracket
        fin_cases hbracket <;> decide
      have htrim := (mem_trim hc).resolve_left (by simp [hblank])
      rw [Bool.or_eq_true, List.isEmpty_iff, beq_iff_eq] at hempty
      rcases hempty with hnil | hnull
      · simp [hnil] at htrim
      · rw [hnull] at htrim
        fin_cases htrim <;> exact absurd hbracket (by decide)
    exact .of_plain (plain_of_scanFrom hplain)
  · exact nested_of_items h

-- In attribute text that is read, brackets are closed in order, and by their own kind where they
-- are not within a nested value of an object. In there only their number counts: all brackets are
-- closed by their own kind if those of these values are.
theorem ofAttributeText_nested {pieces : List Piece} (h : ofAttributeText text = .ok pieces) :
    Nested AnyKind (scan text).items ∧ ItemsNested AnyKind (scan text).items ∧
      (Nested OwnKind (scan text).items ↔ ItemsNested OwnKind (scan text).items) := by
  have hitems := nested_of_ofAttributeText h
  refine ⟨hitems.nested fun _ _ _ => trivial, hitems, fun hown => hitems.own hown, fun hown => ?_⟩
  exact hown.nested fun _ _ => id

-- The brackets of the value of `a` are not those of the argument of `b`.
theorem ofAttributeText_nested_mismatched :
    ofAttributeText "\x7b\"a\": [1)\x7d, b((c))".toList =
        .ok [⟨"a", "[1)"⟩, ⟨"b", "(c)"⟩] ∧
      Nested AnyKind (scan "\x7b\"a\": [1)\x7d, b((c))".toList).items ∧
      ItemsNested AnyKind (scan "\x7b\"a\": [1)\x7d, b((c))".toList).items ∧
      (Nested OwnKind (scan "\x7b\"a\": [1)\x7d, b((c))".toList).items ↔
        ItemsNested OwnKind (scan "\x7b\"a\": [1)\x7d, b((c))".toList).items) := by
  have hread : ofAttributeText "\x7b\"a\": [1)\x7d, b((c))".toList =
      .ok [⟨"a", "[1)"⟩, ⟨"b", "(c)"⟩] := eq_ok_of_toOption (by decide +kernel)
  exact ⟨hread, ofAttributeText_nested hread⟩

-- A text is read although a parenthesis closes the square bracket in it.
theorem not_nested_of_ofAttributeText :
    ofAttributeText "\x7b\"a\": [1)\x7d".toList = .ok [⟨"a", "[1)"⟩] ∧
      ¬Nested OwnKind (scan "\x7b\"a\": [1)\x7d".toList).items := by
  refine ⟨eq_ok_of_toOption (by decide +kernel), fun h => ?_⟩
  have hscan : (scan "\x7b\"a\": [1)\x7d".toList).items =
      ⟨.lBrace, 0, [], ['{']⟩ :: ([⟨.string, 1, [], ['"', 'a', '"']⟩, ⟨.colon, 4, [], [':']⟩,
        ⟨.lBracket, 6, [' '], ['[']⟩, ⟨.number, 7, [], ['1']⟩, ⟨.rParen, 8, [], [')']⟩] ++
        ⟨.rBrace, 9, [], ['}']⟩ :: []) := by cbv
  have hvalue : Nested AnyKind (⟨.lBracket, 6, [' '], ['[']⟩ ::
      ([⟨.number, 7, [], ['1']⟩] ++ ⟨.rParen, 8, [], [')']⟩ :: [])) :=
    .group rfl rfl trivial (.token rfl rfl .nil) .nil
  rw [hscan] at h
  obtain ⟨-, hinner, -⟩ := h.of_group rfl rfl (.token rfl rfl (.token rfl rfl hvalue))
  have hgroup := (hinner.of_token rfl).of_token rfl
  obtain ⟨hkind, -, -⟩ := @Nested.of_group _ AnyKind [⟨.number, 7, [], ['1']⟩] [] _ _ hgroup
    rfl rfl (.token rfl rfl .nil)
  simp [OwnKind, closing] at hkind

end Texts

end Reflection.Metadata
