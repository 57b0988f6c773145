import Reflection.Proofs.Header.Alongside.Courses
import Reflection.Proofs.Header.Groups
import Reflection.Proofs.Header.Members.Labels
import Reflection.Proofs.Header.Orderly

namespace Reflection.Header

section Declarations

-- The tokens of whole declarations. Attributes are closed in them, and whether a keyword starts the
-- declaration of a type is seen in them, whatever follows.
structure Whole (tokens : List Token) : Prop where
  ends : ∀ last ∈ tokens.getLast?, last.kind = .semicolon ∨ last.kind = .rBrace
  starts : ∀ key rest, key :: rest <:+ tokens → isTypeKey key.kind = true → ∀ more others,
    startsTypeDeclaration (key :: (rest ++ more)) = startsTypeDeclaration (key :: (rest ++ others))
  closed : ∀ opening rest, opening :: rest <:+ tokens → opening.kind = .attrOpen →
    ∃ text first second after, rest = text ++ first :: second :: after ∧
      first.kind = .rBracket ∧ second.kind = .rBracket

namespace Whole

variable {border : Border} {token last : Token} {tokens rest : List Token}

theorem tail (h : Whole (token :: rest)) (hlast : rest.getLast? = some last) : Whole rest where
  ends := by
    have hends := h.ends
    rwa [List.getLast?_cons, hlast, Option.getD_some, ← hlast] at hends
  starts := fun key after hsuffix =>
    h.starts key after (hsuffix.trans (List.suffix_cons token rest))
  closed := fun opening after hsuffix =>
    h.closed opening after (hsuffix.trans (List.suffix_cons token rest))

theorem leads (text : List Token) {first second : Token} (after : List Token)
    (hfirst : first.kind = .rBracket) (hsecond : second.kind = .rBracket)
    (more others : List Token) :
    border.Leads ((text ++ first :: second :: after) ++ more)
      ((text ++ first :: second :: after) ++ others) := by
  induction text with
  | nil => exact .closed rfl ⟨hfirst, hsecond⟩
  | cons token text ih => exact .cons rfl ih

theorem beside (h : Whole tokens) (hlast : tokens.getLast? = some last)
    (hends : border.ends last.kind) :
    border.Beside (tokens ++ border.tail) (tokens ++ border.other) := by
  induction tokens with
  | nil => cases hlast
  | cons token rest ih =>
      cases hrest : rest.getLast? with
      | none =>
          obtain rfl := List.getLast?_eq_none_iff.mp hrest
          cases hlast
          exact .last ⟨rfl, rfl⟩ hends
      | some final =>
          have hfinal : rest.getLast? = some last := by
            rw [List.getLast?_cons, hrest] at hlast
            rw [hrest, ← hlast]
            rfl
          refine .cons ⟨rfl, rfl⟩ (fun hkey => h.starts token rest (List.suffix_refl _) hkey _ _)
            (fun hopening => ?_) (ih (h.tail hfinal) hfinal)
          obtain ⟨text, first, second, after, rfl, hfirst, hsecond⟩ :=
            h.closed token rest (List.suffix_refl _) hopening
          exact leads text after hfirst hsecond _ _

end Whole

-- Properly nested tokens with a semicolon behind them are whole.
theorem Nested.whole {inner : List Token} {semicolon : Token} (h : Nested inner)
    (hsemicolon : semicolon.kind = .semicolon) : Whole (inner ++ [semicolon]) := by
  have hplace {token : Token} {rest : List Token} (hkind : token.kind ≠ .semicolon)
      (hsuffix : token :: rest <:+ inner ++ [semicolon]) :
      ∃ part, rest = part ++ [semicolon] ∧ Closing (token :: part) := by
    rcases List.suffix_concat_iff.mp hsuffix with hnil | ⟨part, hpart, hinner⟩
    · cases hnil
    · cases part with
      | nil =>
          obtain ⟨rfl, -⟩ := List.cons.inj hpart
          exact absurd hsemicolon hkind
      | cons first part =>
          obtain ⟨rfl, rfl⟩ := List.cons.inj hpart
          obtain ⟨before, rfl⟩ := hinner
          exact ⟨part, rfl, before, h⟩
  refine ⟨fun last hlast => ?_, fun key rest hsuffix hkey more others => ?_,
    fun opening rest hsuffix hopening => ?_⟩
  · rw [List.getLast?_concat, Option.mem_some_iff] at hlast
    exact .inl (hlast ▸ hsemicolon)
  · obtain ⟨part, rfl, hclosing⟩ :=
      hplace (fun hkind => by rw [hkind] at hkey; cases hkey) hsuffix
    rw [List.append_assoc, List.append_assoc]
    exact startsTypeDeclaration_decided (.inl hsemicolon) hclosing.tail _ _
  · obtain ⟨part, rfl, hclosing⟩ := hplace (fun hkind => by simp [hkind] at hopening) hsuffix
    cases hclosing.closedBehind (by rw [hopening]; rfl) with
    | group hdelimiters => exact absurd hopening hdelimiters.plain
    | @block first second text _ hfirst hsecond _ _ after =>
        exact ⟨text, first, second, after ++ [semicolon], by simp, hfirst, hsecond⟩

end Declarations

section Parts

variable {α : Type} {place : α → α} {bound : Nat}

-- Reading without an error up to a place.
def Recorded.Clean (read : Recorded α bound) (tail : List Token) : Prop :=
  read.errors = [] ∧ read.rest = tail

-- The whole gives what the declarations in front give by themselves, what `own` gives by itself,
-- and then what `rest` gives; the errors are those of `own` and of `rest`. Places do not count in
-- what is read with other tokens behind it.
def InParts {first second third fourth : Nat} (place : α → α) (front : Recorded (List α) first)
    (own : Recorded (List α) second) (rest : Recorded (List α) third)
    (whole : Recorded (List α) fourth) : Prop :=
  ∃ found between reports,
    outcomeAs (List.map place) front.outcome = .ok (found.map place) ∧
    outcomeAs (List.map place) own.outcome = .ok (between.map place) ∧
    own.recovered.map ParseError.unplaced = reports.map ParseError.unplaced ∧
    Recorded.Extends (found ++ between) reports rest whole

-- What may stand behind a last token of this kind without being taken to belong to it.
structure Begins (last : TokenKind) (tokens : List Token) : Prop where
  semicolon : last = .rBrace → kindAt tokens ≠ .semicolon
  doc : (trailingDoc tokens).1 = none

-- A closing brace on the one side, other declarations on the other.
def Begins.border {last : TokenKind} {closing : Token} {others : List Token}
    (h : Begins last others) (hclosing : closing.kind = .rBrace)
    (hlast : last = .semicolon ∨ last = .rBrace) (after : List Token) : Border where
  tail := closing :: after
  other := others
  ends := (· = last)
  ends_kind := fun _ hkind => hkind ▸ hlast
  tail_kind := fun _ _ => hclosing
  other_kind := fun hkind => h.semicolon hkind.symm
  other_doc := h.doc

end Parts

section Courses

variable {σ α : Type} {place : α → α} {turn : σ → List Token → Turn σ α} {state last final : σ}
  {closing : Token} {tokens others : List Token} {found : List α} {errors : List ParseError}

-- Whole declarations lead to what follows as they lead to the brace behind them, if no error is
-- reported or the last one ends with a semicolon.
theorem Whole.course (h : Whole tokens) (hturn : Parallel place turn)
    (hclosing : closing.kind = .rBrace) (after : List Token)
    (hbegins : ∀ last ∈ tokens.getLast?, Begins last.kind others)
    (hclean : ∀ last ∈ tokens.getLast?, last.kind = .rBrace → errors = [])
    (hcourse : Course turn state (tokens ++ closing :: after) found errors last
      (closing :: after)) :
    ∃ more reports, Course turn state (tokens ++ others) more reports last others ∧
      found.map place = more.map place ∧
      errors.map ParseError.unplaced = reports.map ParseError.unplaced := by
  cases hlast : tokens.getLast? with
  | none =>
      obtain rfl := List.getLast?_eq_none_iff.mp hlast
      obtain ⟨rfl, rfl, rfl⟩ := hcourse.eq_here hclosing
      exact ⟨[], [], .here _ others, rfl, rfl⟩
  | some token =>
      let border := (hbegins token hlast).border hclosing (h.ends token hlast) after
      have hends : border.ends token.kind := rfl
      exact Course.beside hturn hends (fun hkind => hclean token hlast hkind.symm) hcourse
        (h.beside hlast hends)

-- The tokens of a declaration, malformed or not: properly nested, with a semicolon behind them, and
-- nothing that belongs to what stands in front.
structure Enclosed (tokens : List Token) : Prop where
  split : ∃ inner semicolon, tokens = inner ++ [semicolon] ∧ Nested inner ∧
    semicolon.kind = .semicolon
  first : kindAt tokens ≠ .semicolon
  doc : (trailingDoc tokens).1 = none

theorem Enclosed.begins (h : Enclosed tokens) (last : TokenKind) (rest : List Token) :
    Begins last (tokens ++ rest) := by
  obtain ⟨hsplit, hfirst, hdoc⟩ := h
  cases tokens with
  | nil =>
      obtain ⟨inner, semicolon, hnil, _⟩ := hsplit
      cases inner <;> cases hnil
  | cons token tokens =>
      refine ⟨fun _ => hfirst, ?_⟩
      rw [List.cons_append, trailingDoc]
      rw [trailingDoc] at hdoc
      split at hdoc
      · cases hdoc
      · next hplain => rw [if_neg hplain]

theorem Enclosed.whole (h : Enclosed tokens) : Whole tokens := by
  obtain ⟨inner, semicolon, rfl, hinner, hsemicolon⟩ := h.split
  exact hinner.whole hsemicolon

theorem Enclosed.ends (h : Enclosed tokens) :
    ∀ last ∈ tokens.getLast?, last.kind = .semicolon := by
  obtain ⟨inner, semicolon, rfl, _, hsemicolon⟩ := h.split
  intro last hlast
  rw [List.getLast?_concat, Option.mem_some_iff] at hlast
  exact hlast ▸ hsemicolon

-- One course behind the other: over what stands in front, and over the declaration itself.
theorem Enclosed.course {own front rest : List Token} {between : List α}
    {reports : List ParseError} (h : Enclosed own) (hturn : Parallel place turn)
    (hclosing : closing.kind = .rBrace) (after : List Token) (hfront : Whole front)
    (hrest : (trailingDoc rest).1 = none)
    (hfirst : Course turn state (front ++ closing :: after) found [] last (closing :: after))
    (hown : Course turn last (own ++ closing :: after) between reports final (closing :: after)) :
    ∃ found' between' reports', found.map place = found'.map place ∧
      between.map place = between'.map place ∧
      reports.map ParseError.unplaced = reports'.map ParseError.unplaced ∧
      Course turn state (front ++ (own ++ rest)) (found' ++ between') reports' final rest := by
  obtain ⟨found', errors, hcourse, hfound, herrors⟩ :=
    hfront.course hturn hclosing after (fun _ _ => h.begins _ rest) (fun _ _ _ => rfl) hfirst
  obtain ⟨between', reports', hmore, hbetween, hreports⟩ :=
    h.whole.course hturn hclosing after
      (fun token hlast => ⟨fun hkind => by simp [h.ends token hlast] at hkind, hrest⟩)
      (fun token hlast hkind => by simp [h.ends token hlast] at hkind) hown
  obtain rfl : errors = [] := List.map_eq_nil_iff.mp herrors.symm
  exact ⟨found', between', reports', hfound, hbetween, hreports, hcourse.trans hmore⟩

end Courses

section Scopes

variable {ending closing : Token} {front own rest : List Token}

theorem scope_closing (hclosing : closing.kind = .rBrace) :
    scope .tolerant ending true [closing] = ⟨.ok [], [], [closing], Nat.le_refl _⟩ :=
  scope_rBrace .tolerant ending true hclosing []

-- Read by itself in a namespace, the declaration leaves it open: the namespace ends at the brace
-- behind it.
def KeepsScope (ending closing : Token) (own : List Token) : Prop :=
  (scope .tolerant ending true (own ++ [closing])).rest = [closing]

-- Wherever it stands in a namespace, behind whole declarations without an error, what is read of
-- these and from the next declaration on stays as it is.
def LocalInScope (ending closing : Token) (own : List Token) : Prop :=
  ∀ front rest, Whole front → (trailingDoc rest).1 = none →
    (scope .tolerant ending true (front ++ [closing])).Clean [closing] →
    InParts Entity.unplaced (scope .tolerant ending true (front ++ [closing]))
      (scope .tolerant ending true (own ++ [closing])) (scope .tolerant ending true rest)
      (scope .tolerant ending true (front ++ (own ++ rest)))

theorem Enclosed.scope_iff (h : Enclosed own) (hclosing : closing.kind = .rBrace) :
    LocalInScope ending closing own ↔ KeepsScope ending closing own := by
  unfold LocalInScope KeepsScope
  symm
  constructor
  · intro hend front rest hfront hrest hclean
    obtain ⟨found, errors, hfirst⟩ := exists_scope_course hclean.2
    obtain ⟨between, reports, hown⟩ := exists_scope_course hend
    have hread := scope_course true hfirst
    have halone := scope_course true hown
    have herrors := hclean.1
    rw [hread.errors_eq, List.append_eq_nil_iff] at herrors
    obtain rfl := herrors.1
    obtain ⟨found', between', reports', hfound, hbetween, hreports, hcourse⟩ :=
      h.course scopeTurn_parallel hclosing [] hfront hrest hfirst hown
    refine ⟨found', between', reports', ?_, ?_, ?_, scope_course true hcourse⟩
    · rw [hread.outcome, scope_closing hclosing]
      simp [outcomeAs, Except.map, hfound]
    · rw [halone.outcome, scope_closing hclosing]
      simp [outcomeAs, Except.map, hbetween]
    · rw [halone.recovered, scope_closing hclosing]
      simp [hreports]
  · intro hall
    have hnil : Whole [] := ⟨by simp, by simp, by simp⟩
    have hclean : (scope .tolerant ending true ([] ++ [closing])).Clean [closing] := by
      rw [List.nil_append, scope_closing hclosing]
      exact ⟨rfl, rfl⟩
    have hdoc : (trailingDoc [closing]).1 = none := by simp [trailingDoc, isTrailingDoc, hclosing]
    obtain ⟨found, between, reports, _, _, _, hwhole⟩ := hall [] [closing] hnil hdoc hclean
    have hrest := hwhole.rest
    rwa [scope_closing hclosing] at hrest

end Scopes

section Bodies

variable {ending closing : Token} {name : Option String} {access last : Access}
  {tokens tail own : List Token}

-- The access in force where the declarations of a body end.
def accessBehind (ending : Token) (name : Option String) (access : Access) (tokens : List Token) :
    Access :=
  lastAccess access (BodyPass.labels ending (bodyPasses .tolerant ending name access tokens))

theorem accessBehind_course {found : List Member} {errors : List ParseError}
    (h : Course (bodyTurn ending name) access tokens found errors last tail)
    (htail : kindAt tail = .rBrace) : accessBehind ending name access tokens = last := by
  induction h with
  | here access tokens =>
      cases tokens with
      | nil => cases htail
      | cons brace rest =>
          rw [kindAt_cons] at htail
          rw [accessBehind, bodyPasses, if_pos htail]
          rfl
  | @behind access last token rest tail found errors hbrace _ ih =>
      have hothers := ih htail
      unfold accessBehind at hothers ⊢
      rw [bodyPasses, if_neg hbrace, BodyPass.labels_cons, lastAccess_append, ← memberStep_access]
      exact hothers

theorem classBody_closing (hclosing : closing.kind = .rBrace) (access : Access) :
    classBody .tolerant ending name access [closing, closing] =
      ⟨.ok [], [], [closing], Nat.le_succ _⟩ :=
  classBody_rBrace .tolerant ending name access hclosing [closing]

-- Where a body ends at the first one of two braces, its declarations lead there.
theorem exists_course_closing
    (h : (classBody .tolerant ending name access (tokens ++ [closing, closing])).rest = [closing]) :
    ∃ found errors last, Course (bodyTurn ending name) access (tokens ++ [closing, closing]) found
      errors last [closing, closing] := by
  obtain ⟨brace, found, errors, last, _, hcourse⟩ := exists_body_course h (List.cons_ne_nil _ _)
  obtain ⟨before, hbefore⟩ := hcourse.suffix bodyTurn_suffix
  have hbrace : brace = closing := by
    have hends : [brace, closing] = [closing, closing] := (List.append_inj' hbefore rfl).2
    exact (List.cons.inj hends).1
  exact ⟨found, errors, last, hbrace ▸ hcourse⟩

-- The same in a class, which takes the brace that closes it.
def KeepsBody (ending closing : Token) (name : Option String) (access : Access)
    (own : List Token) : Prop :=
  (classBody .tolerant ending name access (own ++ [closing, closing])).rest = [closing]

-- The declarations behind are read in the access that is in force there.
def LocalInBody (ending closing : Token) (name : Option String) (access : Access)
    (own : List Token) : Prop :=
  ∀ start front rest, Whole front → (trailingDoc rest).1 = none →
    (classBody .tolerant ending name start (front ++ [closing, closing])).Clean [closing] →
    accessBehind ending name start (front ++ [closing, closing]) = access →
    InParts Member.unplaced
      (classBody .tolerant ending name start (front ++ [closing, closing]))
      (classBody .tolerant ending name access (own ++ [closing, closing]))
      (classBody .tolerant ending name
        (accessBehind ending name access (own ++ [closing, closing])) rest)
      (classBody .tolerant ending name start (front ++ (own ++ rest)))

theorem Enclosed.classBody_iff (h : Enclosed own) (hclosing : closing.kind = .rBrace) :
    LocalInBody ending closing name access own ↔ KeepsBody ending closing name access own := by
  unfold LocalInBody KeepsBody
  symm
  constructor
  · intro hend start front rest hfront hrest hclean haccess
    obtain ⟨found, errors, middle, hfirst⟩ := exists_course_closing hclean.2
    obtain ⟨between, reports, last, hown⟩ := exists_course_closing hend
    have hread := classBody_course hfirst
    have halone := classBody_course hown
    have herrors := hclean.1
    rw [hread.errors_eq, List.append_eq_nil_iff] at herrors
    obtain rfl := herrors.1
    rw [accessBehind_course hfirst hclosing] at haccess
    subst haccess
    obtain ⟨found', between', reports', hfound, hbetween, hreports, hcourse⟩ :=
      h.course (bodyTurn_parallel name) hclosing [closing] hfront hrest hfirst hown
    rw [accessBehind_course hown hclosing]
    refine ⟨found', between', reports', ?_, ?_, ?_, classBody_course hcourse⟩
    · rw [hread.outcome, classBody_closing hclosing]
      simp [outcomeAs, Except.map, hfound]
    · rw [halone.outcome, classBody_closing hclosing]
      simp [outcomeAs, Except.map, hbetween]
    · rw [halone.recovered, classBody_closing hclosing]
      simp [hreports]
  · intro hall
    have hnil : Whole [] := ⟨by simp, by simp, by simp⟩
    have hclean : (classBody .tolerant ending name access ([] ++ [closing, closing])).Clean
        [closing] := by
      rw [List.nil_append, classBody_closing hclosing]
      exact ⟨rfl, rfl⟩
    have haccess : accessBehind ending name access ([] ++ [closing, closing]) = access :=
      accessBehind_course (.here access [closing, closing]) hclosing
    have hdoc : (trailingDoc [closing, closing]).1 = none := by
      simp [trailingDoc, isTrailingDoc, hclosing]
    obtain ⟨found, between, reports, _, _, _, hwhole⟩ :=
      hall access [] [closing, closing] hnil hdoc hclean haccess
    have hrest := hwhole.rest
    rwa [classBody_closing hclosing] at hrest

end Bodies

section Recovery

variable {ending closing : Token} {own : List Token}

-- A declaration between its scope and the tokens behind it.
theorem Enclosed.exists_frame (h : Enclosed own) (hclosing : closing.kind = .rBrace)
    (after : List Token) :
    ∃ frame : Frame, frame.tokens = own ++ closing :: after ∧ frame.behind = closing :: after := by
  obtain ⟨inner, semicolon, rfl, hinner, hsemicolon⟩ := h.split
  exact ⟨⟨inner, semicolon, closing, after, hinner, hsemicolon, hclosing⟩, by
    rw [List.append_assoc, List.singleton_append, Frame.tokens, Frame.behind], rfl⟩

theorem Enclosed.keepsScope (h : Enclosed own) (hclosing : closing.kind = .rBrace)
    (horderly : Orderly ending (own ++ [closing])) : KeepsScope ending closing own := by
  obtain ⟨frame, htokens, hbehind⟩ := h.exists_frame hclosing []
  rw [← htokens] at horderly
  obtain ⟨hdeep, hbrace⟩ := scope_deep horderly frame.tokens 0 (.whole frame)
  rw [KeepsScope, ← htokens, ← hbehind]
  exact hdeep.eq_behind hbrace

theorem Enclosed.keepsBody (h : Enclosed own) (hclosing : closing.kind = .rBrace)
    (horderly : Orderly ending (own ++ [closing, closing])) (name : Option String)
    (access : Access) : KeepsBody ending closing name access own := by
  obtain ⟨frame, htokens, hbehind⟩ := h.exists_frame hclosing [closing]
  rw [← htokens] at horderly
  obtain ⟨brace, members, hbrace, _, hdeep⟩ :=
    @classBody_deep ending frame 0 frame.tokens name access horderly
      (classesDeep horderly _) (.whole frame)
  have hrest := hdeep.eq_behind hbrace
  rw [hbehind] at hrest
  rw [KeepsBody, ← htokens]
  exact (List.cons.inj hrest).2

-- What a malformed declaration does to the scope or class around it is seen from the declaration
-- alone. The scope is kept if every reader that takes a brace on its own, wherever in the
-- declaration it starts, comes back to the depth at which it starts.
theorem Enclosed.recovery (h : Enclosed own) (hclosing : closing.kind = .rBrace) :
    ((LocalInScope ending closing own ↔ KeepsScope ending closing own) ∧
      (Orderly ending (own ++ [closing]) → LocalInScope ending closing own)) ∧
    ∀ name access,
      (LocalInBody ending closing name access own ↔ KeepsBody ending closing name access own) ∧
        (Orderly ending (own ++ [closing, closing]) →
          LocalInBody ending closing name access own) := by
  refine ⟨⟨h.scope_iff hclosing, fun horderly => ?_⟩, fun name access =>
    ⟨h.classBody_iff hclosing, fun horderly => ?_⟩⟩
  · exact (h.scope_iff hclosing).mpr (h.keepsScope hclosing horderly)
  · exact (h.classBody_iff hclosing).mpr (h.keepsBody hclosing horderly name access)

end Recovery

section Examples

-- The tokens of `struct S { public int x; enum E { A }; };`, without a colon behind the label.
def unlabeledClass : List Token :=
  [.structKw, .ident, .lBrace, .publicKw, .ident, .ident, .semicolon, .enumKw, .ident, .lBrace,
    .ident, .rBrace, .semicolon, .rBrace, .semicolon].map tokenOf

theorem enclosed_unlabeledClass : Enclosed unlabeledClass := by
  have hbraces : Delimiters (tokenOf .lBrace) (tokenOf .rBrace) := ⟨rfl, by decide, rfl⟩
  have henum : Nested ([.enumKw, .ident, .lBrace, .ident, .rBrace, .semicolon].map tokenOf) :=
    .token rfl rfl (.token rfl rfl (.group hbraces (.token rfl rfl .nil) (.token rfl rfl .nil)))
  have hbody : Nested ([.publicKw, .ident, .ident, .semicolon, .enumKw, .ident, .lBrace, .ident,
      .rBrace, .semicolon].map tokenOf) :=
    .token rfl rfl (.token rfl rfl (.token rfl rfl (.token rfl rfl henum)))
  exact ⟨⟨_, tokenOf .semicolon, rfl, .token rfl rfl (.token rfl rfl (.group hbraces hbody .nil)),
    rfl⟩, by decide, rfl⟩

-- An error between the braces of a class, which leaves what is around the class as it is.
theorem recovery_unlabeledClass :
    Enclosed unlabeledClass ∧ (tokenOf .rBrace).kind = .rBrace ∧
      (scope .tolerant (tokenOf .eof) true (unlabeledClass ++ [tokenOf .rBrace])).errors ≠ [] ∧
      LocalInScope (tokenOf .eof) (tokenOf .rBrace) unlabeledClass ∧
      ∀ name access, LocalInBody (tokenOf .eof) (tokenOf .rBrace) name access unlabeledClass := by
  have hrecovery := @Enclosed.recovery (tokenOf .eof) (tokenOf .rBrace) unlabeledClass
    enclosed_unlabeledClass rfl
  exact ⟨enclosed_unlabeledClass, rfl, by decide +kernel, hrecovery.1.2 (by decide +kernel),
    fun name access => (hrecovery.2 name access).2 (by decide +kernel)⟩

-- The tokens of `enum E { A B };`.
def brokenEnum : List Token :=
  [.enumKw, .ident, .lBrace, .ident, .ident, .rBrace, .semicolon].map tokenOf

-- The scopes and types of a header, with how many declarations are in each, and what is reported.
def Entity.outline : Entity → Option String × Nat
  | .namespaceDecl head entities => (head.name, entities.length)
  | .classDecl head members => (head.name, members.length)
  | .enumDecl decl => (decl.name, decl.enumerators.length)

def outlineOf (text : String) : Option (List (Option String × Nat) × List String) :=
  (parse .tolerant text.toList).toOption.map fun parsed =>
    (parsed.tree.entities.map Entity.outline, parsed.recovered.map ParseError.message)

-- An error between the braces of an enum. The brace of the enum closes the namespace, and what
-- follows is read outside of it.
theorem not_localInScope_brokenEnum :
    Enclosed brokenEnum ∧
      (scope .tolerant (tokenOf .eof) true (brokenEnum ++ [tokenOf .rBrace])).errors ≠ [] ∧
      ¬LocalInScope (tokenOf .eof) (tokenOf .rBrace) brokenEnum ∧
      outlineOf "namespace N \x7b enum E \x7b A B \x7d; struct X \x7b\x7d; \x7d" =
        some ([(some "N", 0), (some "X", 0)],
          ["unexpected token: expected '\x7d', found identifier", "unmatched '\x7d'"]) := by
  have hbraces : Delimiters (tokenOf .lBrace) (tokenOf .rBrace) := ⟨rfl, by decide, rfl⟩
  have hinner : Nested ([.ident, .ident].map tokenOf) := .token rfl rfl (.token rfl rfl .nil)
  have henclosed : Enclosed brokenEnum :=
    ⟨⟨_, tokenOf .semicolon, rfl,
      .token rfl rfl (.token rfl rfl (.group hbraces hinner .nil)), rfl⟩, by decide, rfl⟩
  refine ⟨henclosed, by decide +kernel, fun hlocal => ?_, by decide +kernel⟩
  have hkeeps := (henclosed.scope_iff rfl).mp hlocal
  unfold KeepsScope at hkeeps
  revert hkeeps
  decide +kernel

end Examples

end Reflection.Header
