import Mathlib.Data.List.Chain
import Reflection.Proofs.Header.Readers
import Reflection.Proofs.Header.Steps

namespace Reflection.Header

variable {ending : Token}

-- The delimiter that closes a group other than an attribute block.
def closerOf : TokenKind → TokenKind
  | .lParen => .rParen
  | .lBrace => .rBrace
  | _ => .rBracket

-- A pair of delimiters, in the order in which they stand.
structure Delimiters (opening closing : Token) : Prop where
  isOpen : opening.kind.isOpen = true
  plain : opening.kind ≠ .attrOpen
  closing : closing.kind = closerOf opening.kind

-- No `]]` comes before the one that `first` starts.
abbrev NoBracketPair (text : List Token) (first : Token) : Prop :=
  List.IsChain (fun one next => one.kind = .rBracket → next.kind ≠ .rBracket) (text ++ [first])

-- Every group is closed by the delimiter of its kind, and an attribute block at its first `]]`.
inductive Nested : List Token → Prop where
  | nil : Nested []
  | token {token : Token} {rest : List Token} (hopen : token.kind.isOpen = false)
      (hclose : token.kind.isClose = false) (hrest : Nested rest) : Nested (token :: rest)
  | group {opening closing : Token} {inner rest : List Token}
      (hdelimiters : Delimiters opening closing) (hinner : Nested inner) (hrest : Nested rest) :
      Nested (opening :: (inner ++ closing :: rest))
  | block {opening first second : Token} {text rest : List Token}
      (hopening : opening.kind = .attrOpen) (hfirst : first.kind = .rBracket)
      (hsecond : second.kind = .rBracket) (htext : Nested text) (hpair : NoBracketPair text first)
      (hrest : Nested rest) : Nested (opening :: (text ++ first :: second :: rest))

-- The same, where an attribute block may hold any tokens up to its first `]]`.
inductive Balanced : List Token → Prop where
  | nil : Balanced []
  | token {token : Token} {rest : List Token} (hopen : token.kind.isOpen = false)
      (hclose : token.kind.isClose = false) (hrest : Balanced rest) : Balanced (token :: rest)
  | group {opening closing : Token} {inner rest : List Token}
      (hdelimiters : Delimiters opening closing) (hinner : Balanced inner)
      (hrest : Balanced rest) : Balanced (opening :: (inner ++ closing :: rest))
  | block {opening first second : Token} {text rest : List Token}
      (hopening : opening.kind = .attrOpen) (hfirst : first.kind = .rBracket)
      (hsecond : second.kind = .rBracket) (hpair : NoBracketPair text first)
      (hrest : Balanced rest) : Balanced (opening :: (text ++ first :: second :: rest))

theorem Nested.balanced {tokens : List Token} (h : Nested tokens) : Balanced tokens := by
  induction h with
  | nil => exact .nil
  | token hopen hclose _ ih => exact .token hopen hclose ih
  | group hdelimiters _ _ ihinner ihrest => exact .group hdelimiters ihinner ihrest
  | block hopening hfirst hsecond _ hpair _ _ ih => exact .block hopening hfirst hsecond hpair ih

-- The tokens that follow the one that opens a group, up to the end of the group.
inductive Closes (opening : Token) : List Token → Prop where
  | delimiters {closing : Token} {inner : List Token} (hdelimiters : Delimiters opening closing)
      (hinner : Balanced inner) : Closes opening (inner ++ [closing])
  | block {first second : Token} {text : List Token} (hopening : opening.kind = .attrOpen)
      (hfirst : first.kind = .rBracket) (hsecond : second.kind = .rBracket)
      (hpair : NoBracketPair text first) : Closes opening (text ++ [first, second])

theorem isClose_closerOf (kind : TokenKind) : (closerOf kind).isClose = true := by
  cases kind <;> rfl

theorem isOpen_closerOf (kind : TokenKind) : (closerOf kind).isOpen = false := by
  cases kind <;> rfl

theorem Delimiters.closes {opening closing : Token} (h : Delimiters opening closing) :
    closing.kind.isOpen = false ∧ closing.kind.isClose = true ∧ closing.kind ≠ .attrOpen := by
  rw [h.closing]
  refine ⟨isOpen_closerOf _, isClose_closerOf _, fun hkind => ?_⟩
  have hopen := isOpen_closerOf opening.kind
  rw [hkind] at hopen
  cases hopen

-- The first two closing brackets in a row are the end of an attribute block.
theorem attributeBlock_nested {first second : Token} {text : List Token}
    (hfirst : first.kind = .rBracket) (hsecond : second.kind = .rBracket)
    (hpair : NoBracketPair text first) (opening : Token) (spelled : List Char)
    (rest : List Token) :
    attributeBlock ending opening spelled (text ++ first :: second :: rest) =
      .done ⟨.attribute,
        String.ofList (Text.trim (spelled ++ text.flatMap Token.spelled ++ first.lead)),
        opening.span.merge second.span⟩ rest := by
  induction text generalizing spelled with
  | nil =>
      rw [List.nil_append, attributeBlock, if_pos ⟨hfirst, hsecond⟩]
      simp [spanAt]
  | cons token text ih =>
      rw [List.cons_append, attributeBlock, if_neg, ih hpair.tail]
      · simp
      · rintro ⟨hone, hnext⟩
        cases text with
        | nil => exact (List.isChain_cons_cons.mp hpair).1 hone hfirst
        | cons next text => exact (List.isChain_cons_cons.mp hpair).1 hone hnext

-- Inside a group, balanced tokens leave the depth as it is.
theorem nestedGroup_balanced {opening : Token} {tokens : List Token} (h : Balanced tokens)
    (depth : Nat) (rest : List Token) :
    nestedGroup ending opening (depth + 1) (tokens ++ rest) =
      nestedGroup ending opening (depth + 1) rest := by
  induction h generalizing depth rest with
  | nil => rfl
  | @token token after hopen hclose _ ih =>
      have hattribute : token.kind ≠ .attrOpen := by
        intro hkind
        rw [hkind] at hopen
        cases hopen
      rw [List.cons_append, nestedGroup_cons, if_neg hattribute, hopen, hclose, if_neg (by decide),
        if_neg (by decide)]
      exact ih depth rest
  | @group first closing inner after hdelimiters _ _ ihinner ihrest =>
      obtain ⟨hopen, hclose, hplain⟩ := hdelimiters.closes
      rw [List.cons_append, nestedGroup_cons, if_neg hdelimiters.plain, hdelimiters.isOpen,
        if_pos rfl, List.append_assoc, ihinner, List.cons_append, nestedGroup_cons,
        if_neg hplain, hopen, hclose, if_neg (by decide), if_pos rfl, if_neg (by omega)]
      exact ihrest depth rest
  | @block first second third text after hopening hfirst hsecond hpair _ ihrest =>
      rw [List.cons_append, nestedGroup_cons, if_pos hopening, List.append_assoc, List.cons_append,
        List.cons_append, attributeBlock_nested hfirst hsecond hpair]
      exact ihrest depth rest

-- Skipping a group ends right behind it, whatever follows.
theorem Closes.skipGroup_append {opening : Token} {group : List Token} (h : Closes opening group)
    (rest : List Token) : skipGroup ending opening (group ++ rest) = .done () rest := by
  cases h with
  | @delimiters closing inner hdelimiters hinner =>
      obtain ⟨hopen, hclose, hplain⟩ := hdelimiters.closes
      rw [skipGroup, if_neg hdelimiters.plain, List.append_assoc, nestedGroup_balanced hinner 0,
        List.singleton_append, nestedGroup_cons, if_neg hplain, hopen, hclose,
        if_neg (by decide), if_pos rfl, if_pos (by omega)]
  | block hopening hfirst hsecond hpair =>
      rw [skipGroup, if_pos hopening, List.append_assoc, List.cons_append, List.singleton_append,
        attributeBlock_nested hfirst hsecond hpair]
      rfl

-- A whole group, by the kind of token that opens it.
inductive WholeGroup : TokenKind → List Token → Prop where
  | delimiters {opening closing : Token} {inner : List Token}
      (hdelimiters : Delimiters opening closing) (hinner : Nested inner) :
      WholeGroup opening.kind (opening :: (inner ++ [closing]))
  | block {opening first second : Token} {text : List Token}
      (hopening : opening.kind = .attrOpen) (hfirst : first.kind = .rBracket)
      (hsecond : second.kind = .rBracket) (htext : Nested text)
      (hpair : NoBracketPair text first) :
      WholeGroup .attrOpen (opening :: (text ++ [first, second]))

namespace WholeGroup

variable {kind : TokenKind} {tokens : List Token} (h : WholeGroup kind tokens)

include h

theorem kindAt_append (rest : List Token) : kindAt (tokens ++ rest) = kind := by
  cases h with
  | delimiters => rfl
  | block hopening => exact hopening

theorem isOpen : kind.isOpen = true := by
  cases h with
  | delimiters hdelimiters => exact hdelimiters.isOpen
  | block => rfl

theorem nested_append {rest : List Token} (hrest : Nested rest) : Nested (tokens ++ rest) := by
  cases h with
  | delimiters hdelimiters hinner => simpa using Nested.group hdelimiters hinner hrest
  | block hopening hfirst hsecond htext hpair =>
      simpa using Nested.block hopening hfirst hsecond htext hpair hrest

end WholeGroup

theorem WholeGroup.closes {kind : TokenKind} {tokens : List Token} (h : WholeGroup kind tokens) :
    ∃ opening group, tokens = opening :: group ∧ opening.kind = kind ∧ Closes opening group := by
  cases h with
  | delimiters hdelimiters hinner =>
      exact ⟨_, _, rfl, rfl, .delimiters hdelimiters hinner.balanced⟩
  | block hopening hfirst hsecond _ hpair =>
      exact ⟨_, _, rfl, hopening, .block hopening hfirst hsecond hpair⟩

-- What skips the group that comes next goes on behind it.
theorem WholeGroup.skip {kind : TokenKind} {tokens : List Token} (h : WholeGroup kind tokens)
    (rest : List Token) :
    ∃ opening inner, tokens ++ rest = opening :: inner ∧ opening.kind = kind ∧ kind.isOpen = true ∧
      skipGroup ending opening inner = .done () rest := by
  obtain ⟨opening, group, rfl, hkind, hcloses⟩ := h.closes
  exact ⟨opening, group ++ rest, rfl, hkind, h.isOpen, hcloses.skipGroup_append rest⟩

section Lookahead

-- Tokens in which no group is left open: the last ones of properly nested tokens.
def Closing (tokens : List Token) : Prop := ∃ before, Nested (before ++ tokens)

theorem Closing.tail {token : Token} {rest : List Token} (h : Closing (token :: rest)) :
    Closing rest := by
  obtain ⟨before, hnested⟩ := h
  refine ⟨before ++ [token], ?_⟩
  rwa [List.append_assoc, List.singleton_append]

theorem Closing.of_append {first second : List Token} (h : Closing (first ++ second)) :
    Closing second := by
  obtain ⟨before, hnested⟩ := h
  exact ⟨before ++ first, by rwa [List.append_assoc]⟩

-- How a group goes on behind the token that opens it.
inductive ClosedBehind (opening : Token) : List Token → Prop where
  | group {closing : Token} {inner : List Token} (hdelimiters : Delimiters opening closing)
      (hinner : Nested inner) (after : List Token) :
      ClosedBehind opening (inner ++ closing :: after)
  | block {first second : Token} {text : List Token} (hopening : opening.kind = .attrOpen)
      (hfirst : first.kind = .rBracket) (hsecond : second.kind = .rBracket)
      (htext : Nested text) (hpair : NoBracketPair text first)
      (after : List Token) :
      ClosedBehind opening (text ++ first :: second :: after)

theorem ClosedBehind.append {opening : Token} {tokens : List Token}
    (h : ClosedBehind opening tokens) (more : List Token) :
    ClosedBehind opening (tokens ++ more) := by
  cases h with
  | group hdelimiters hinner after =>
      rw [List.append_assoc, List.cons_append]
      exact .group hdelimiters hinner (after ++ more)
  | block hopening hfirst hsecond htext hpair after =>
      rw [List.append_assoc, List.cons_append, List.cons_append]
      exact .block hopening hfirst hsecond htext hpair (after ++ more)

-- A token that opens a group does so in one of two parts of the tokens, or between them.
theorem closedBehind_of_parts {opening between : Token} {inner after before rest : List Token}
    (hbetween : between.kind.isOpen = false) (hopen : opening.kind.isOpen = true)
    (hinner : ∀ before rest, inner = before ++ opening :: rest → ClosedBehind opening rest)
    (hafter : ∀ before rest, after = before ++ opening :: rest → ClosedBehind opening rest)
    (h : inner ++ between :: after = before ++ opening :: rest) : ClosedBehind opening rest := by
  rcases List.append_eq_append_iff.mp h with ⟨part, hbefore, hpart⟩ | ⟨part, hfirst, hpart⟩
  · cases part with
    | nil =>
        rw [(List.cons.inj hpart).1, hopen] at hbetween
        cases hbetween
    | cons _ part => exact hafter part rest (List.cons.inj hpart).2
  · cases part with
    | nil =>
        rw [← (List.cons.inj hpart).1, hopen] at hbetween
        cases hbetween
    | cons _ part =>
        obtain ⟨rfl, rfl⟩ := List.cons.inj hpart
        exact (hinner before part hfirst).append _

-- A group that is opened anywhere in nested tokens is closed in them.
theorem Nested.closedBehind {tokens before rest : List Token} {opening : Token}
    (h : Nested tokens) (htokens : tokens = before ++ opening :: rest)
    (hopen : opening.kind.isOpen = true) : ClosedBehind opening rest := by
  induction h generalizing before rest with
  | nil => simp at htokens
  | @token token after hplain _ _ ih =>
      cases before with
      | nil =>
          rw [← (List.cons.inj htokens).1, hplain] at hopen
          cases hopen
      | cons first before => exact ih (List.cons.inj htokens).2
  | @group first closing inner after hdelimiters hinner _ ihinner ihrest =>
      cases before with
      | nil =>
          obtain ⟨rfl, rfl⟩ := List.cons.inj htokens
          exact .group hdelimiters hinner after
      | cons _ before =>
          exact closedBehind_of_parts hdelimiters.closes.1 hopen (fun _ _ => ihinner)
            (fun _ _ => ihrest) (List.cons.inj htokens).2
  | @block first second third text after hopening hfirst hsecond htext hpair _ ihtext ihrest =>
      cases before with
      | nil =>
          obtain ⟨rfl, rfl⟩ := List.cons.inj htokens
          exact .block hopening hfirst hsecond htext hpair after
      | cons _ before =>
          have hbrackets : second.kind.isOpen = false ∧ third.kind.isOpen = false := by
            rw [hfirst, hsecond]
            exact ⟨rfl, rfl⟩
          refine closedBehind_of_parts hbrackets.1 hopen (fun _ _ => ihtext) (fun before rest h => ?_)
            (List.cons.inj htokens).2
          exact @closedBehind_of_parts opening third [] after before rest hbrackets.2 hopen
            (fun _ _ h => by simp at h) (fun _ _ => ihrest) h

theorem Closing.closedBehind {opening : Token} {rest : List Token}
    (h : Closing (opening :: rest)) (hopen : opening.kind.isOpen = true) :
    ClosedBehind opening rest := by
  obtain ⟨before, hnested⟩ := h
  exact hnested.closedBehind rfl hopen

theorem pastAttribute_nested {first second : Token} {text : List Token}
    (hfirst : first.kind = .rBracket) (hsecond : second.kind = .rBracket)
    (hpair : NoBracketPair text first) (rest : List Token) :
    pastAttribute (text ++ first :: second :: rest) = rest := by
  induction text with
  | nil => rw [List.nil_append, pastAttribute, if_pos ⟨hfirst, hsecond⟩, List.tail_cons]
  | cons token text ih =>
      rw [List.cons_append, pastAttribute, if_neg]
      · exact ih hpair.tail
      · rintro ⟨hone, hnext⟩
        cases text with
        | nil => exact (List.isChain_cons_cons.mp hpair).1 hone hfirst
        | cons next text => exact (List.isChain_cons_cons.mp hpair).1 hone hnext

theorem pastParens_nested {tokens : List Token} (h : Nested tokens) (depth : Nat)
    (rest : List Token) :
    pastParens (depth + 1) (tokens ++ rest) = pastParens (depth + 1) rest := by
  induction h generalizing depth rest with
  | nil => rfl
  | @token token after hopen hclose _ ih =>
      rw [List.cons_append, pastParens]
      cases hkind : token.kind with
      | lParen =>
          rw [hkind] at hopen
          cases hopen
      | rParen =>
          rw [hkind] at hclose
          cases hclose
      | _ => exact ih depth rest
  | @group first closing inner after hdelimiters _ _ ihinner ihrest =>
      have hclosing := hdelimiters.closing
      rw [List.cons_append, pastParens, List.append_assoc, List.cons_append]
      cases hkind : first.kind with
      | lParen =>
          rw [hkind] at hclosing
          dsimp only
          rw [ihinner, pastParens, hclosing]
          dsimp only [closerOf]
          rw [if_neg (by omega)]
          exact ihrest depth rest
      | rParen =>
          have hopen := hdelimiters.isOpen
          rw [hkind] at hopen
          cases hopen
      | _ =>
          rw [hkind] at hclosing
          dsimp only
          rw [ihinner, pastParens, hclosing]
          exact ihrest depth rest
  | @block first second third text after hopening hfirst hsecond _ hpair _ ihtext ihrest =>
      rw [List.cons_append, pastParens, hopening, List.append_assoc, List.cons_append,
        List.cons_append]
      dsimp only
      rw [ihtext, pastParens, hfirst]
      dsimp only
      rw [pastParens, hsecond]
      exact ihrest depth rest

theorem pastSpecifiers_cons (token : Token) (rest : List Token) :
    pastSpecifiers (token :: rest) =
      match token.kind with
      | .attrOpen => pastSpecifiers (pastAttribute rest)
      | .alignasKw =>
        if kindAt rest = .lParen then (pastParens 1 rest.tail).bind pastSpecifiers
        else pastSpecifiers rest
      | _ => some (token :: rest) := by
  rw [pastSpecifiers.eq_def]
  dsimp only
  cases token.kind <;> try rfl
  cases rest with
  | nil => simp [pastSpecifiers]
  | cons opening inner =>
      by_cases hopening : opening.kind = .lParen
      · rw [if_pos (show kindAt (opening :: inner) = .lParen from hopening), List.tail_cons]
        simp only [if_pos hopening]
        split <;> next h => rw [h]; rfl
      · rw [if_neg (show kindAt (opening :: inner) ≠ .lParen from hopening)]
        simp only [if_neg hopening]

-- Looking behind an attribute block or a group in parentheses that comes next.
theorem Closing.pastAttribute {opening : Token} {rest : List Token}
    (h : Closing (opening :: rest)) (hkind : opening.kind = .attrOpen) :
    ∃ more, Closing more ∧ more.length < rest.length ∧
      ∀ others, pastAttribute (rest ++ others) = more ++ others := by
  have hrest := h.tail
  cases h.closedBehind (by rw [hkind]; rfl) with
  | group hdelimiters _ _ => exact absurd hkind hdelimiters.plain
  | block _ hfirst hsecond _ hpair more =>
      refine ⟨more, hrest.of_append.tail.tail, ?_, fun others => ?_⟩
      · simp only [List.length_append, List.length_cons]
        omega
      · rw [List.append_assoc, List.cons_append, List.cons_append]
        exact pastAttribute_nested hfirst hsecond hpair _

theorem Closing.pastParens {opening : Token} {rest : List Token}
    (h : Closing (opening :: rest)) (hkind : opening.kind = .lParen) :
    ∃ more, Closing more ∧ more.length < rest.length ∧
      ∀ others, pastParens 1 (rest ++ others) = some (more ++ others) := by
  have hrest := h.tail
  cases h.closedBehind (by rw [hkind]; rfl) with
  | block hblock _ _ _ _ _ => exact absurd (hkind.symm.trans hblock) (by decide)
  | group hdelimiters hinner more =>
      have hclosing := hdelimiters.closing
      rw [hkind] at hclosing
      refine ⟨more, hrest.of_append.tail, ?_, fun others => ?_⟩
      · simp only [List.length_append, List.length_cons]
        omega
      · rw [List.append_assoc, List.cons_append, pastParens_nested hinner 0, Header.pastParens,
          hclosing]
        rfl

-- Where looking ahead ends at the latest.
abbrev Stops (kind : TokenKind) : Prop := kind = .semicolon ∨ kind = .lBrace

variable {stop : Token}

theorem pastSpecifiers_stop (hstop : Stops stop.kind) (rest : List Token) :
    pastSpecifiers (stop :: rest) = some (stop :: rest) := by
  rw [pastSpecifiers_cons]
  rcases hstop with hkind | hkind <;> rw [hkind]

theorem Stops.ne_lParen {kind : TokenKind} (h : Stops kind) : kind ≠ .lParen := by
  rcases h with hkind | hkind <;> rw [hkind] <;> decide

-- Looking ahead stays in front of a `;` or brace that comes behind closed groups.
theorem pastSpecifiers_decided (hstop : Stops stop.kind) {tokens : List Token}
    (h : Closing tokens) :
    ∃ named, ∀ rest, pastSpecifiers (tokens ++ stop :: rest) = some (named ++ stop :: rest) := by
  match tokens with
  | [] => exact ⟨[], fun rest => pastSpecifiers_stop hstop rest⟩
  | token :: after =>
      have hafter := h.tail
      cases hkind : token.kind with
      | attrOpen =>
          obtain ⟨more, hmore, hlt, hpast⟩ := h.pastAttribute hkind
          obtain ⟨named, hnamed⟩ := pastSpecifiers_decided hstop hmore
          refine ⟨named, fun rest => ?_⟩
          rw [List.cons_append, pastSpecifiers_cons, hkind]
          dsimp only
          rw [hpast]
          exact hnamed rest
      | alignasKw =>
          by_cases hparens : kindAt after = .lParen
          · obtain ⟨opening, inner, hcons⟩ : ∃ opening inner, after = opening :: inner := by
              cases after with
              | nil => cases hparens
              | cons opening inner => exact ⟨opening, inner, rfl⟩
            rw [hcons] at hparens hafter
            obtain ⟨more, hmore, hlt, hpast⟩ := hafter.pastParens hparens
            have hlength : after.length = inner.length + 1 := by rw [hcons, List.length_cons]
            obtain ⟨named, hnamed⟩ := pastSpecifiers_decided hstop hmore
            refine ⟨named, fun rest => ?_⟩
            rw [List.cons_append, pastSpecifiers_cons, hkind, hcons, List.cons_append]
            dsimp only
            rw [kindAt_cons] at hparens ⊢
            rw [if_pos hparens, List.tail_cons, hpast]
            exact hnamed rest
          · obtain ⟨named, hnamed⟩ := pastSpecifiers_decided hstop hafter
            refine ⟨named, fun rest => ?_⟩
            have hnext : kindAt (after ++ stop :: rest) ≠ .lParen := by
              cases after with
              | nil => exact hstop.ne_lParen
              | cons opening inner => exact hparens
            rw [List.cons_append, pastSpecifiers_cons, hkind]
            dsimp only
            rw [if_neg hnext]
            exact hnamed rest
      | _ =>
          refine ⟨token :: after, fun rest => ?_⟩
          rw [List.cons_append, pastSpecifiers_cons, hkind]
termination_by tokens.length
decreasing_by all_goals simp only [List.length_cons] at *; omega

theorem pastAngles_decided (hstop : Stops stop.kind) (tokens : List Token) (depth : Nat) :
    (∀ rest, pastAngles depth (tokens ++ stop :: rest) = none) ∨
      ∃ plain, ∀ rest, pastAngles depth (tokens ++ stop :: rest) = some (plain ++ stop :: rest) := by
  induction tokens generalizing depth with
  | nil =>
      refine .inl fun rest => ?_
      rw [List.nil_append, pastAngles]
      rcases hstop with hkind | hkind <;> rw [hkind]
  | cons token after ih =>
      simp only [List.cons_append, pastAngles]
      cases token.kind with
      | lt => exact ih (depth + 1)
      | gt =>
          by_cases hdepth : depth ≤ 1
          · exact .inr ⟨after, fun rest => if_pos hdepth⟩
          · simp only [if_neg hdepth]
            exact ih (depth - 1)
      | semicolon | lBrace => exact .inl fun rest => rfl
      | _ => exact ih depth

theorem kindAt_append_cons (tokens rest others : List Token) :
    kindAt (tokens ++ stop :: rest) = kindAt (tokens ++ stop :: others) := by
  cases tokens <;> rfl

theorem pastTypeKey_decided (hstop : Stops stop.kind) {key : Token} {tokens : List Token}
    (h : Closing tokens) :
    ∃ named, Closing named ∧
      ∀ rest, pastTypeKey (key :: (tokens ++ stop :: rest)) = named ++ stop :: rest := by
  cases tokens with
  | nil =>
      refine ⟨[], h, fun rest => ?_⟩
      rw [pastTypeKey, if_neg]
      rintro ⟨_, hkind⟩
      rw [List.nil_append, kindAt_cons] at hkind
      rcases hstop with hstop | hstop <;> rw [hstop] at hkind <;> simp at hkind
  | cons token after =>
      by_cases hkeys : key.kind = .enumKw ∧ (token.kind = .classKw ∨ token.kind = .structKw)
      · exact ⟨after, h.tail, fun rest => if_pos hkeys⟩
      · exact ⟨token :: after, h, fun rest => if_neg hkeys⟩

-- Whether a type keyword starts a declaration is decided in front of the next `;` or brace.
theorem startsTypeDeclaration_decided (hstop : Stops stop.kind) {key : Token} {tokens : List Token}
    (h : Closing tokens) (rest others : List Token) :
    startsTypeDeclaration (key :: (tokens ++ stop :: rest)) =
      startsTypeDeclaration (key :: (tokens ++ stop :: others)) := by
  obtain ⟨keyed, hkeyed, hkey⟩ := @pastTypeKey_decided stop hstop key tokens h
  obtain ⟨named, hnamed⟩ := pastSpecifiers_decided hstop hkeyed
  have hname : isNamePart stop = false := by
    rcases hstop with hkind | hkind <;> simp [isNamePart, hkind]
  obtain ⟨plain, hplain⟩ : ∃ plain, ∀ rest,
      (named ++ stop :: rest).dropWhile isNamePart = plain ++ stop :: rest := by
    refine ⟨named.dropWhile isNamePart, fun rest => ?_⟩
    rw [List.dropWhile_append]
    split
    · next hempty =>
      rw [List.isEmpty_iff.mp hempty, List.dropWhile_cons_of_neg (by simp [hname]), List.nil_append]
    · rfl
  simp only [startsTypeDeclaration, hkey, hnamed, hplain]
  cases plain with
  | nil =>
      have hlt : stop.kind ≠ .lt := by
        rcases hstop with hkind | hkind <;> rw [hkind] <;> decide
      simp only [List.nil_append, if_neg hlt, kindAt_cons]
  | cons token after =>
      simp only [List.cons_append]
      by_cases hlt : token.kind = .lt
      · simp only [if_pos hlt]
        rcases pastAngles_decided hstop after 1 with hnone | ⟨left, hleft⟩
        · simp only [hnone]
        · simp only [hleft, @kindAt_append_cons stop left rest others]
      · simp only [if_neg hlt, kindAt_cons]

end Lookahead

end Reflection.Header
