import Reflection.Proofs.Header.Members.Reading

namespace Reflection.Header

variable {ending : Token}

section Lookahead

-- What may follow the names in the head of a type: a body, a base or underlying type, or the end.
def stopsHead : TokenKind → Bool
  | .lBrace | .colon | .semicolon => true
  | _ => false

-- The lookahead behind attributes and `alignas` specifiers.
def headEnds (tokens : List Token) : Bool :=
  match tokens.dropWhile isNamePart with
  | [] => false
  | token :: inner =>
    if token.kind = .lt then (pastAngles 1 inner).any fun rest => stopsHead (kindAt rest)
    else stopsHead token.kind

theorem startsTypeDeclaration_eq {tokens rest : List Token}
    (h : pastSpecifiers (pastTypeKey tokens) = some rest) :
    startsTypeDeclaration tokens = headEnds rest := by
  have hstops (after : List Token) : (match kindAt after with
      | .lBrace | .colon | .semicolon => true
      | _ => false) = stopsHead (kindAt after) := by
    cases kindAt after <;> rfl
  rw [startsTypeDeclaration, h, headEnds]
  dsimp only
  cases rest.dropWhile isNamePart with
  | nil => rfl
  | cons token inner =>
      dsimp only
      by_cases hlt : token.kind = .lt
      · rw [if_pos hlt, if_pos hlt]
        cases pastAngles 1 inner with
        | none => rfl
        | some after => exact hstops after
      · rw [if_neg hlt, if_neg hlt]
        exact hstops (token :: inner)

theorem headEnds_name {token : Token} (h : isNamePart token = true) (rest : List Token) :
    headEnds (token :: rest) = headEnds rest := by
  rw [headEnds, List.dropWhile_cons_of_pos h]
  rfl

theorem headEnds_names {names : List Token} (h : ∀ token ∈ names, isNamePart token = true)
    (rest : List Token) : headEnds (names ++ rest) = headEnds rest := by
  induction names with
  | nil => rfl
  | cons token names ih =>
      rw [List.cons_append, headEnds_name (h token List.mem_cons_self)]
      exact ih fun other hmem => h other (List.mem_cons_of_mem token hmem)

theorem headEnds_arguments {token : Token} (h : token.kind = .lt) (rest : List Token) :
    headEnds (token :: rest) = (pastAngles 1 rest).any fun after => stopsHead (kindAt after) := by
  have hname : isNamePart token = false := by simp [isNamePart, h]
  rw [headEnds, List.dropWhile_cons_of_neg (by simp [hname])]
  exact if_pos h

theorem headEnds_other {token : Token} (h : token.kind ∉ [.ident, .colonColon, .lt])
    (rest : List Token) : headEnds (token :: rest) = stopsHead token.kind := by
  simp only [List.mem_cons, List.not_mem_nil, or_false, not_or] at h
  have hname : isNamePart token = false := by simp [isNamePart, h.1, h.2.1]
  rw [headEnds, List.dropWhile_cons_of_neg (by simp [hname])]
  exact if_neg h.2.2

-- Angle brackets in pairs, whatever else stands between them.
inductive Paired : List Token → Prop where
  | nil : Paired []
  | token {token : Token} {rest : List Token} (hkind : token.kind ∉ [.lt, .gt])
      (hrest : Paired rest) : Paired (token :: rest)
  | angles {opening closing : Token} {inner rest : List Token} (hopening : opening.kind = .lt)
      (hclosing : closing.kind = .gt) (hinner : Paired inner) (hrest : Paired rest) :
      Paired (opening :: (inner ++ closing :: rest))

-- A brace or semicolon among template arguments ends the lookahead.
theorem pastAngles_paired {inner : List Token} (h : Paired inner) (depth : Nat)
    (rest : List Token) :
    pastAngles (depth + 1) (inner ++ rest) = none ∨
      pastAngles (depth + 1) (inner ++ rest) = pastAngles (depth + 1) rest := by
  induction h generalizing depth rest with
  | nil => exact .inr rfl
  | @token token after hkind _ ih =>
      simp only [List.mem_cons, List.not_mem_nil, or_false, not_or] at hkind
      rw [List.cons_append, pastAngles]
      cases htoken : token.kind with
      | lt | gt => simp [htoken] at hkind
      | semicolon | lBrace => exact .inl rfl
      | _ => exact ih depth rest
  | @angles opening closing inner after hopening hclosing _ _ ihinner ihrest =>
      rw [List.cons_append, pastAngles, hopening, List.append_assoc, List.cons_append]
      dsimp only
      rcases ihinner (depth + 1) (closing :: (after ++ rest)) with hnone | hbehind
      · exact .inl hnone
      · rw [hbehind, pastAngles, hclosing]
        dsimp only
        rw [if_neg (by omega)]
        exact ihrest depth rest

end Lookahead

section Specifiers

-- What may stand between the keyword of a type and its name, or among the words of a member.
inductive Specifier where
  | attributed (attributes : AttributeTokens)
  | aligned (keyword : Token) (group : List Token) (hkeyword : keyword.kind = .alignasKw)
      (hgroup : WholeGroup .lParen group)

namespace Specifier

def tokens : Specifier → List Token
  | attributed attributes => attributes.tokens
  | aligned keyword group _ _ => keyword :: group

def blocks : Specifier → List AnnotationBlock
  | attributed attributes => [attributes.block]
  | aligned .. => []

end Specifier

theorem Read.map_map {α β γ : Type} (f : α → β) (g : β → γ) (read : Read α) :
    (read.map f).map g = read.map (g ∘ f) := by
  cases read <;> rfl

theorem specifiers_specifier (specifier : Specifier) (rest : List Token) :
    specifiers ending (specifier.tokens ++ rest) =
      (specifiers ending rest).map (specifier.blocks ++ ·) := by
  cases specifier with
  | attributed attributes =>
      obtain ⟨tokens, htokens, hblock⟩ := @attributes.attributeBlock_tokens ending rest
      rw [Specifier.tokens, htokens, specifiers_cons, attributes.opening_kind]
      dsimp only
      rw [hblock, Read.bind_done]
      rfl
  | aligned keyword group hkeyword hgroup =>
      obtain ⟨opening, inner, htokens, hkind, _, hskip⟩ := @WholeGroup.skip ending _ _ hgroup rest
      rw [Specifier.tokens, List.cons_append, htokens, specifiers_cons, hkeyword]
      dsimp only
      rw [skipParens, if_pos hkind, hskip, Read.bind_done]
      cases specifiers ending rest <;> rfl

theorem specifiers_append (specs : List Specifier) (rest : List Token) :
    specifiers ending (specs.flatMap Specifier.tokens ++ rest) =
      (specifiers ending rest).map (specs.flatMap Specifier.blocks ++ ·) := by
  induction specs with
  | nil =>
      rw [List.flatMap_nil, List.nil_append]
      cases specifiers ending rest <;> rfl
  | cons specifier specs ih =>
      rw [List.flatMap_cons, List.append_assoc, specifiers_specifier, ih, Read.map_map,
        List.flatMap_cons]
      congr 1
      funext blocks
      exact (List.append_assoc _ _ _).symm

theorem pastSpecifiers_append (specs : List Specifier) (rest : List Token) :
    pastSpecifiers (specs.flatMap Specifier.tokens ++ rest) = pastSpecifiers rest := by
  induction specs with
  | nil => rfl
  | cons specifier specs ih =>
      rw [List.flatMap_cons, List.append_assoc, ← ih]
      cases specifier with
      | attributed attributes =>
          rw [Specifier.tokens, AttributeTokens.tokens, List.cons_append, pastSpecifiers_cons,
            attributes.opening_kind, List.append_assoc]
          dsimp only
          rw [List.cons_append, List.singleton_append, pastAttribute_nested
            attributes.close.first_kind attributes.close.second_kind attributes.no_pair]
      | aligned keyword group hkeyword hgroup =>
          rw [Specifier.tokens, List.cons_append, pastSpecifiers_cons, hkeyword]
          dsimp only
          rw [if_pos (hgroup.kindAt_append _)]
          generalize hkind : TokenKind.lParen = kind at hgroup
          cases hgroup with
          | block => cases hkind
          | @delimiters opening closing inner hdelimiters hinner =>
              have hclosing := hdelimiters.closing
              rw [← hkind] at hclosing
              rw [List.cons_append, List.tail_cons, List.append_assoc, pastParens_nested hinner 0,
                List.singleton_append, pastParens, hclosing]
              rfl

end Specifiers

section Names

-- The names behind the first one of a qualified name.
inductive FollowingNames : List Token → Prop where
  | nil : FollowingNames []
  | cons {separator name : Token} {rest : List Token} (hseparator : separator.kind = .colonColon)
      (hname : name.kind = .ident) (hrest : FollowingNames rest) :
      FollowingNames (separator :: name :: rest)

-- A qualified name, or none at all.
inductive OptionalName : List Token → Prop where
  | none : OptionalName []
  | some {name : Token} {rest : List Token} (hname : name.kind = .ident)
      (hrest : FollowingNames rest) : OptionalName (name :: rest)

-- A class may be called `final` only if it is called nothing else.
inductive ClassName : List Token → Prop where
  | plain {name : List Token} (hname : OptionalName name)
      (hfinal : name.head?.any isFinal = false) : ClassName name
  | final {name : List Token} {word : Token} (hname : OptionalName name)
      (hfinal : name.head?.any isFinal = false) (hword : isFinal word = true) :
      ClassName (name ++ [word])

def NameParts (names : List Token) : Prop := ∀ token ∈ names, isNamePart token = true

-- The next name of a qualified name.
def StartsName (tokens : List Token) : Prop :=
  kindAt tokens = .colonColon ∧ kindAt tokens.tail = .ident

theorem FollowingNames.unique {first second left other : List Token} (hfirst : FollowingNames first)
    (hsecond : FollowingNames second) (h : first ++ left = second ++ other)
    (hleft : ¬StartsName left) (hother : ¬StartsName other) : left = other := by
  induction hfirst generalizing second with
  | nil =>
      cases hsecond with
      | nil => exact h
      | cons hseparator hname _ =>
          refine absurd ?_ hleft
          rw [← List.nil_append left, h]
          exact ⟨hseparator, hname⟩
  | cons hseparator hname _ ih =>
      cases hsecond with
      | nil => exact absurd (by rw [← List.nil_append other, ← h]; exact ⟨hseparator, hname⟩) hother
      | cons _ _ hrest =>
          simp only [List.cons_append, List.cons.injEq] at h
          exact ih hrest h.2.2

variable {names tail : List Token}

theorem NameParts.kindAt (h : NameParts names) (hne : names ≠ []) (tail : List Token) :
    kindAt (names ++ tail) ∈ [.ident, .colonColon] := by
  cases names with
  | nil => exact absurd rfl hne
  | cons token names =>
      have hkind := h token List.mem_cons_self
      rw [isNamePart, Bool.or_eq_true, decide_eq_true_eq, decide_eq_true_eq] at hkind
      simpa using hkind

theorem moreNames_stop {tokens : List Token} (h : ¬StartsName tokens) :
    moreNames tokens = ([], tokens) := by
  unfold moreNames
  split
  · next separator name rest => exact if_neg h
  · rfl

theorem not_startsName_stop (htail : stopsHead (Header.kindAt tail) = true) : ¬StartsName tail := by
  rintro ⟨hkind, _⟩
  rw [hkind] at htail
  cases htail

-- What a qualified name leaves of a run of names in front of the end of a head.
theorem moreNames_names (htail : stopsHead (Header.kindAt tail) = true) (names : List Token) :
    ∃ front left, names = front ++ left ∧ FollowingNames front ∧ ¬StartsName left ∧
      (moreNames (names ++ tail)).2 = left ++ tail := by
  match names with
  | [] =>
      refine ⟨[], [], rfl, .nil, by simp [StartsName], ?_⟩
      rw [List.nil_append, moreNames_stop (not_startsName_stop htail)]
  | [token] =>
      refine ⟨[], [token], rfl, .nil, by simp [StartsName], ?_⟩
      rw [moreNames_stop]
      · rintro ⟨_, hname⟩
        rw [List.singleton_append, List.tail_cons] at hname
        rw [hname] at htail
        cases htail
  | separator :: name :: rest =>
      by_cases hstarts : separator.kind = .colonColon ∧ name.kind = .ident
      · obtain ⟨front, left, hrest, hfront, hleft, hmore⟩ := moreNames_names htail rest
        refine ⟨separator :: name :: front, left, by rw [hrest]; rfl,
          .cons hstarts.1 hstarts.2 hfront, hleft, ?_⟩
        rw [List.cons_append, List.cons_append, moreNames, if_pos hstarts]
        exact hmore
      · refine ⟨[], _, rfl, .nil, hstarts, ?_⟩
        rw [moreNames_stop]
        exact hstarts

theorem kind_of_isFinal {token : Token} (h : isFinal token = true) : token.kind = .ident := by
  simp only [isFinal, Bool.and_eq_true, decide_eq_true_eq] at h
  exact h.1

theorem head_of_stop (htail : stopsHead (Header.kindAt tail) = true) :
    ∃ token rest, tail = token :: rest ∧ token.kind ∉ [.ident, .colonColon, .lt] := by
  cases tail with
  | nil => cases htail
  | cons token rest =>
      refine ⟨token, rest, rfl, ?_⟩
      rw [kindAt_cons] at htail
      cases hkind : token.kind <;> simp_all [stopsHead]

-- Of a run of names in front of the end of a head, a qualified name takes the first one.
theorem qualifiedName_names (htail : stopsHead (Header.kindAt tail) = true) (names : List Token) :
    ∃ front left, names = front ++ left ∧ OptionalName front ∧
      (qualifiedName (names ++ tail)).2 = left ++ tail ∧
        ∀ other behind, names = other ++ behind → OptionalName other → other ≠ [] →
          ¬StartsName behind → behind = left := by
  cases names with
  | nil =>
      obtain ⟨token, rest, rfl, hkind⟩ := head_of_stop htail
      simp only [List.mem_cons, not_or] at hkind
      refine ⟨[], [], rfl, .none, ?_, fun other behind hnames _ hne _ => ?_⟩
      · simp [qualifiedName, hkind.1]
      · exact absurd (List.append_eq_nil_iff.mp hnames.symm).1 hne
  | cons token names =>
      by_cases hident : token.kind = .ident
      · obtain ⟨front, left, rfl, hfront, hleft, hmore⟩ := moreNames_names htail names
        refine ⟨token :: front, left, rfl, .some hident hfront, ?_, ?_⟩
        · rw [List.cons_append, qualifiedName, if_pos hident]
          exact hmore
        · rintro other behind hnames (_ | ⟨_, hrest⟩) hne hbehind
          · exact absurd rfl hne
          · exact (hfront.unique hrest (List.cons.inj hnames).2 hleft hbehind).symm
      · refine ⟨[], token :: names, rfl, .none, ?_, ?_⟩
        · rw [List.cons_append, qualifiedName, if_neg hident]
        · rintro other behind hnames (_ | ⟨hname, _⟩) hne _
          · exact absurd rfl hne
          · exact absurd ((List.cons.inj hnames).1 ▸ hname) hident

theorem left_nil_of_optionalName {front left : List Token} (hname : OptionalName (front ++ left))
    (hunique : ∀ other behind, front ++ left = other ++ behind → OptionalName other → other ≠ [] →
      ¬StartsName behind → behind = left) : left = [] := by
  by_cases hne : front ++ left = []
  · exact (List.append_eq_nil_iff.mp hne).2
  · exact (hunique _ [] (List.append_nil _).symm hname hne (by simp [StartsName])).symm

theorem qualifiedName_all (htail : stopsHead (Header.kindAt tail) = true) (h : NameParts names) :
    ∃ left, (qualifiedName (names ++ tail)).2 = left ++ tail ∧ NameParts left ∧
      (left = [] ↔ OptionalName names) := by
  obtain ⟨front, left, rfl, hfront, hread, hunique⟩ := qualifiedName_names htail names
  exact ⟨left, hread, fun other hmem => h other (List.mem_append_right front hmem),
    fun hempty => by rwa [hempty, List.append_nil],
    fun hname => left_nil_of_optionalName hname hunique⟩

theorem skipFinal_stop (htail : stopsHead (Header.kindAt tail) = true) : skipFinal tail = tail := by
  obtain ⟨token, rest, rfl, hkind⟩ := head_of_stop htail
  rw [skipFinal, if_neg]
  intro hword
  exact hkind (by simp [kind_of_isFinal (by simpa using hword)])

-- Behind the name of a class that is not called `final`.
theorem skipFinal_names (htail : stopsHead (Header.kindAt tail) = true) {before : List Token}
    (hbefore : NameParts before) :
    ∃ left, skipFinal (before ++ tail) = left ++ tail ∧ NameParts left ∧
      (left = [] ↔ before = [] ∨ ∃ word, before = [word] ∧ isFinal word = true) := by
  cases before with
  | nil => exact ⟨[], skipFinal_stop htail, hbefore, iff_of_true rfl (.inl rfl)⟩
  | cons word others =>
      by_cases hword : isFinal word = true
      · refine ⟨others, ?_, fun other hmem => hbefore other (List.mem_cons_of_mem word hmem), ?_⟩
        · rw [List.cons_append, skipFinal, if_pos (by simp [hword]), List.tail_cons]
        · simp [hword]
      · refine ⟨word :: others, ?_, hbefore, ?_⟩
        · rw [List.cons_append, skipFinal, if_neg (by simp [hword])]
        · simp only [List.cons_ne_nil, false_or, false_iff]
          rintro ⟨other, hother, hfinal⟩
          rw [(List.cons.inj hother).1] at hword
          exact hword hfinal

-- So does the name of a class, with `final` behind it or in its place.
theorem className_names (htail : stopsHead (Header.kindAt tail) = true) (h : NameParts names) :
    ∃ before left, (className (names ++ tail)).2 = before ++ tail ∧ NameParts before ∧
      skipFinal (before ++ tail) = left ++ tail ∧ NameParts left ∧
        (left = [] ↔ ClassName names) := by
  by_cases hword : names.head?.any isFinal = true
  · obtain ⟨left, hskip, hleft, hempty⟩ := skipFinal_names htail h
    refine ⟨names, left, ?_, h, hskip, hleft, hempty.trans ⟨?_, fun hname => .inr ?_⟩⟩
    · rw [className, if_pos]
      cases names with
      | nil => cases hword
      | cons token names => exact hword
    · rintro (rfl | ⟨word, rfl, hfinal⟩)
      · cases hword
      · exact @ClassName.final [] word .none rfl hfinal
    · cases hname with
      | plain _ hfinal =>
          rw [hword] at hfinal
          cases hfinal
      | @final name word _ hfinal hlast =>
          cases name with
          | nil => exact ⟨word, rfl, hlast⟩
          | cons first others =>
              rw [List.head?_cons] at hfinal
              rw [List.cons_append, List.head?_cons, hfinal] at hword
              cases hword
  · have hplain : names.head?.any isFinal = false := by simpa using hword
    have hread : (className (names ++ tail)).2 = (qualifiedName (names ++ tail)).2 := by
      rw [className, if_neg]
      cases names with
      | nil =>
          obtain ⟨token, rest, rfl, hkind⟩ := head_of_stop htail
          intro hfinal
          exact hkind (by simp [kind_of_isFinal (by simpa using hfinal)])
      | cons token names => exact hword
    obtain ⟨front, left, rfl, hfront, hname, hunique⟩ := qualifiedName_names htail names
    have hleft : NameParts left := fun other hmem => h other (List.mem_append_right front hmem)
    obtain ⟨behind, hskip, hbehind, hempty⟩ := skipFinal_names htail hleft
    refine ⟨left, behind, hread.trans hname, hleft, hskip, hbehind, hempty.trans ⟨?_, ?_⟩⟩
    · rintro (rfl | ⟨word, rfl, hfinal⟩)
      · rw [List.append_nil] at hplain ⊢
        exact .plain hfront hplain
      · refine .final hfront ?_ hfinal
        cases front with
        | nil => rfl
        | cons first others => exact hplain
    · intro hclass
      generalize hall : front ++ left = all at hclass
      cases hclass with
      | plain hoptional _ =>
          rw [← hall] at hoptional
          exact .inl (left_nil_of_optionalName hoptional hunique)
      | @final name word hoptional _ hfinal =>
          cases name with
          | nil =>
              rw [hall] at hplain
              simp [hfinal] at hplain
          | cons first others =>
              have hone := hunique _ [word] hall hoptional (List.cons_ne_nil _ _)
                (by simp [StartsName])
              exact .inr ⟨word, hone.symm, hfinal⟩

end Names

section Heads

-- What may follow the keyword of a type: attributes and `alignas`, names, and then what ends the
-- head.
structure TypeHead where
  specifiers : List Specifier
  names : List Token
  behind : List Token
  name_parts : NameParts names
  stops : stopsHead (kindAt behind) = true

-- A reading that fails in front of `tail`.
def Read.FailsBefore {α : Type} (tail : List Token) (read : Read α) : Prop :=
  ∃ error left, left ≠ [] ∧ read = .failed error (left ++ tail)

theorem Read.not_failsBefore {α : Type} {tail : List Token} {read : Read α}
    (h : read.rest <:+ tail) : ¬read.FailsBefore tail := by
  rintro ⟨error, left, hne, rfl⟩
  have hlength := h.length_le
  rw [Read.rest_failed, List.length_append] at hlength
  exact hne (List.eq_nil_of_length_eq_zero (by omega))

namespace TypeHead

variable (head : TypeHead)

def tokens : List Token := head.specifiers.flatMap Specifier.tokens ++ (head.names ++ head.behind)

theorem names_cons {names : List Token} (hnames : NameParts names) {tail : List Token}
    (htail : stopsHead (kindAt tail) = true) :
    ∃ first others, names ++ tail = first :: others ∧
      first.kind ∈ [.ident, .colonColon, .lBrace, .colon, .semicolon] := by
  cases names with
  | nil =>
      cases tail with
      | nil => cases htail
      | cons token rest =>
          refine ⟨token, rest, rfl, ?_⟩
          rw [kindAt_cons] at htail
          cases hkind : token.kind <;> simp_all [stopsHead]
  | cons token names =>
      refine ⟨token, names ++ tail, rfl, ?_⟩
      have hkind := NameParts.kindAt hnames (List.cons_ne_nil token names) tail
      rw [List.cons_append, kindAt_cons] at hkind
      generalize token.kind = kind at hkind
      fin_cases hkind <;> decide

theorem kindAt_tokens : kindAt head.tokens ∉ [.classKw, .structKw] := by
  obtain ⟨first, others, hnames, hkind⟩ := names_cons head.name_parts head.stops
  unfold tokens
  cases head.specifiers with
  | nil =>
      rw [List.flatMap_nil, List.nil_append, hnames, kindAt_cons]
      generalize first.kind = kind at hkind
      fin_cases hkind <;> decide
  | cons specifier specifiers =>
      cases specifier with
      | attributed attributes =>
          simp [Specifier.tokens, AttributeTokens.tokens, attributes.opening_kind]
      | aligned keyword group hkeyword hgroup => simp [Specifier.tokens, hkeyword]

theorem pastTypeKey_tokens (keyword : Token) :
    pastTypeKey (keyword :: head.tokens) = head.tokens := by
  have hkind := head.kindAt_tokens
  rw [pastTypeKey, if_neg]
  rintro ⟨_, hclass⟩
  exact hkind (by simpa using hclass)

theorem startsTypeDeclaration_pastTypeKey {tokens : List Token}
    (h : pastTypeKey tokens = head.tokens) : startsTypeDeclaration tokens = true := by
  obtain ⟨first, others, hnames, hkind⟩ := names_cons head.name_parts head.stops
  have hpast : pastSpecifiers (pastTypeKey tokens) = some (head.names ++ head.behind) := by
    rw [h, TypeHead.tokens, pastSpecifiers_append, hnames, pastSpecifiers_cons]
    generalize first.kind = kind at hkind
    fin_cases hkind <;> rfl
  obtain ⟨token, rest, hbehind, hother⟩ := head_of_stop head.stops
  have hstops := head.stops
  rw [hbehind, kindAt_cons] at hstops
  rw [startsTypeDeclaration_eq hpast, headEnds_names head.name_parts, hbehind,
    headEnds_other hother, hstops]

theorem specifiers_tokens :
    Header.specifiers ending head.tokens =
      .done (head.specifiers.flatMap Specifier.blocks) (head.names ++ head.behind) := by
  obtain ⟨first, others, hnames, hkind⟩ := names_cons head.name_parts head.stops
  rw [tokens, specifiers_append, hnames, specifiers_cons]
  generalize first.kind = kind at hkind
  fin_cases hkind <;> simp [Read.map]

-- Names that are left over stand where a body has to.
theorem expect_left {left : List Token} (hleft : NameParts left) (hne : left ≠ []) :
    expect ending .lBrace (left ++ head.behind) =
      .failed (unexpected ending .lBrace (left ++ head.behind)) (left ++ head.behind) := by
  rw [expect, if_neg]
  intro hbrace
  have hkind := NameParts.kindAt hleft hne head.behind
  rw [hbrace] at hkind
  simp at hkind

theorem classOpening_failsBefore :
    (classOpening ending head.tokens).FailsBefore head.behind ↔ ¬ClassName head.names := by
  obtain ⟨before, left, hname, hbefore, hfinal, hleft, hempty⟩ :=
    className_names head.stops head.name_parts
  have harguments : skipTemplateArguments ending (before ++ head.behind) =
      .done () (before ++ head.behind) := by
    obtain ⟨first, others, hnames, hkind⟩ := names_cons hbefore head.stops
    rw [hnames, skipTemplateArguments, if_neg]
    intro hlt
    simp [hlt] at hkind
  rw [← hempty, classOpening, head.specifiers_tokens, Read.bind_done]
  dsimp only
  rw [hname, harguments, Read.bind_done, hfinal]
  by_cases hne : left = []
  · refine iff_of_false (Read.not_failsBefore ?_) (not_not_intro hne)
    rw [hne, List.nil_append]
    split
    · exact List.tail_suffix _
    · rw [Read.rest_map]
      exact enterBody_suffix ending _
  · have hkind := NameParts.kindAt hleft hne head.behind
    refine iff_of_true ⟨unexpected ending .lBrace (left ++ head.behind), left, hne, ?_⟩ hne
    rw [if_neg (fun h => by simp [h] at hkind), enterBody, if_neg (fun h => by simp [h] at hkind),
      Read.bind_done, head.expect_left hleft hne]
    rfl

-- The keyword of an enum, and the one behind it in `enum class` and `enum struct`.
structure EnumKeywords where
  first : Token
  second : Option Token
  first_kind : first.kind = .enumKw
  second_kind : ∀ token ∈ second, token.kind ∈ [.classKw, .structKw]

-- The head of an enum behind the first keyword.
def enumTokens (keywords : EnumKeywords) : List Token := keywords.second.toList ++ head.tokens

variable (keywords : EnumKeywords)

theorem pastTypeKey_enumTokens :
    pastTypeKey (keywords.first :: head.enumTokens keywords) = head.tokens := by
  have hkinds := keywords.second_kind
  unfold enumTokens
  cases hsecond : keywords.second with
  | none => exact head.pastTypeKey_tokens keywords.first
  | some token =>
      rw [Option.toList_some, List.singleton_append, pastTypeKey, if_pos, List.tail_cons]
      exact ⟨keywords.first_kind, by simpa using hkinds token hsecond⟩

theorem enumTokens_tail :
    (if kindAt (head.enumTokens keywords) = .classKw ∨ kindAt (head.enumTokens keywords) = .structKw
      then (head.enumTokens keywords).tail else head.enumTokens keywords) = head.tokens := by
  have hkinds := keywords.second_kind
  unfold enumTokens
  cases hsecond : keywords.second with
  | none =>
      rw [Option.toList_none, List.nil_append, if_neg]
      exact fun h => head.kindAt_tokens (by simpa using h)
  | some token =>
      rw [Option.toList_some, List.singleton_append, kindAt_cons,
        if_pos (by simpa using hkinds token hsecond), List.tail_cons]

theorem enumDeclaration_failsBefore (annotations : List AnnotationBlock) :
    (enumDeclaration ending annotations keywords.first
        (head.enumTokens keywords)).FailsBefore head.behind ↔ ¬OptionalName head.names := by
  obtain ⟨left, hname, hleft, hempty⟩ := qualifiedName_all head.stops head.name_parts
  rw [← hempty, enumDeclaration]
  dsimp only
  rw [head.enumTokens_tail, head.specifiers_tokens, Read.bind_done, hname]
  by_cases hne : left = []
  · refine iff_of_false (Read.not_failsBefore ?_) (not_not_intro hne)
    rw [hne, List.nil_append]
    refine Read.suffix_bind ?_ fun _ after => ?_
    · split
      · exact (skipUnderlyingType_suffix ending _).trans (List.tail_suffix _)
      · exact List.suffix_refl _
    · split
      · exact List.tail_suffix after
      · exact Read.suffix_bind (expect_suffix ending .lBrace after)
          fun _ inner => enumBody_suffix ending _ inner
  · have hkind := NameParts.kindAt hleft hne head.behind
    refine iff_of_true ⟨unexpected ending .lBrace (left ++ head.behind), left, hne, ?_⟩ hne
    rw [if_neg (fun h => by simp [h] at hkind), Read.bind_done,
      if_neg (fun h => by simp [h] at hkind), head.expect_left hleft hne]
    rfl

end TypeHead

end Heads

end Reflection.Header
