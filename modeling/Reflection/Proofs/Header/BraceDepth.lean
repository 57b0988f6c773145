import Reflection.Proofs.Header.Courses
import Reflection.Proofs.Header.Nested
import Reflection.Proofs.Header.Passing

namespace Reflection.Header

variable {ending : Token}

section Depth

-- A brace, as it is seen from behind.
def braceStep : TokenKind → Int
  | .lBrace => -1
  | .rBrace => 1
  | _ => 0

-- How many braces are open in front of tokens that close them all.
def braceDepth : List Token → Int
  | [] => 0
  | token :: rest => braceStep token.kind + braceDepth rest

@[simp] theorem braceDepth_nil : braceDepth [] = 0 := rfl

@[simp] theorem braceDepth_cons (token : Token) (rest : List Token) :
    braceDepth (token :: rest) = braceStep token.kind + braceDepth rest := rfl

@[simp] theorem braceDepth_append (first second : List Token) :
    braceDepth (first ++ second) = braceDepth first + braceDepth second := by
  induction first with
  | nil => simp
  | cons token first ih =>
      rw [List.cons_append, braceDepth_cons, braceDepth_cons, ih, Int.add_assoc]

theorem braceStep_plain {kind : TokenKind} (h : kind ∉ [.lBrace, .rBrace]) :
    braceStep kind = 0 := by
  cases kind <;> first | rfl | simp at h

theorem Delimiters.braceStep {opening closing : Token} (h : Delimiters opening closing) :
    braceStep opening.kind + braceStep closing.kind = 0 := by
  have hopen := h.isOpen
  rw [h.closing]
  cases hkind : opening.kind <;> rw [hkind] at hopen <;> first | rfl | cases hopen

theorem Delimiters.closing_le {opening closing : Token} (h : Delimiters opening closing) :
    0 ≤ Header.braceStep closing.kind := by
  rw [h.closing]
  cases opening.kind <;> decide

-- Properly nested tokens leave the depth as it is, and it is nowhere below zero in them.
theorem Nested.braceDepth {tokens : List Token} (h : Nested tokens) : braceDepth tokens = 0 := by
  induction h with
  | nil => rfl
  | @token token rest hopen hclose _ ih =>
      have hplain : token.kind ∉ [.lBrace, .rBrace] := by
        intro hmem
        simp only [List.mem_cons, List.not_mem_nil, or_false] at hmem
        rcases hmem with hkind | hkind <;> simp [hkind, TokenKind.isOpen, TokenKind.isClose] at *
      rw [braceDepth_cons, braceStep_plain hplain, ih, Int.add_zero]
  | group hdelimiters _ _ ihinner ihrest =>
      have hstep := hdelimiters.braceStep
      simp only [braceDepth_cons, braceDepth_append, ihinner, ihrest]
      omega
  | block hopening hfirst hsecond _ _ _ ihtext ihrest =>
      simp only [braceDepth_cons, braceDepth_append, ihtext, ihrest, hopening, hfirst, hsecond]
      rfl

-- From no place on are more braces opened than closed.
def Covered (tokens : List Token) : Prop := ∀ part, part <:+ tokens → 0 ≤ braceDepth part

namespace Covered

variable {token : Token} {tokens rest : List Token}

theorem nil : Covered [] := by
  intro part hpart
  rw [List.suffix_nil.mp hpart]
  exact Int.le_refl 0

theorem whole (h : Covered tokens) : 0 ≤ braceDepth tokens := h tokens (List.suffix_refl tokens)

theorem cons (h : Covered rest) (hdepth : 0 ≤ braceDepth (token :: rest)) :
    Covered (token :: rest) := by
  intro part hpart
  rcases List.suffix_cons_iff.mp hpart with rfl | hpart
  · exact hdepth
  · exact h part hpart

theorem cons_close (h : Covered rest) (hclose : 0 ≤ braceStep token.kind) :
    Covered (token :: rest) := by
  have := h.whole
  refine h.cons ?_
  rw [braceDepth_cons]
  omega

theorem cons_nested {first : Token} {more : List Token} (hnested : Nested (first :: more))
    (hrest : Covered rest) (hmore : Covered (more ++ rest)) : Covered (first :: more ++ rest) := by
  have := hrest.whole
  refine cons hmore ?_
  rw [List.append_eq, ← List.cons_append, braceDepth_append, hnested.braceDepth]
  omega

end Covered

theorem Nested.covered_append {tokens rest : List Token} (h : Nested tokens)
    (hrest : Covered rest) : Covered (tokens ++ rest) := by
  induction h generalizing rest with
  | nil => exact hrest
  | token hopen hclose hafter ih =>
      exact .cons_nested (.token hopen hclose hafter) hrest (ih hrest)
  | group hdelimiters hinner hafter ihinner ihafter =>
      refine .cons_nested (.group hdelimiters hinner hafter) hrest ?_
      rw [List.append_assoc]
      exact ihinner ((ihafter hrest).cons_close hdelimiters.closing_le)
  | block hopening hfirst hsecond htext hpair hafter ihtext ihafter =>
      have hbracket {token : Token} (hkind : token.kind = .rBracket) :
          0 ≤ Header.braceStep token.kind := by rw [hkind]; decide
      refine .cons_nested (.block hopening hfirst hsecond htext hpair hafter) hrest ?_
      rw [List.append_assoc]
      exact ihtext (((ihafter hrest).cons_close (hbracket hsecond)).cons_close (hbracket hfirst))

theorem Closing.braceDepth_nonneg {tokens : List Token} (h : Closing tokens) :
    0 ≤ braceDepth tokens := by
  obtain ⟨before, hnested⟩ := h
  have hcovered := hnested.covered_append Covered.nil
  rw [List.append_nil] at hcovered
  exact hcovered tokens (List.suffix_append before tokens)

end Depth

section Frames

theorem ClosedBehind.whole {opening : Token} {tokens : List Token}
    (h : ClosedBehind opening tokens) :
    ∃ group after, tokens = group ++ after ∧ WholeGroup opening.kind (opening :: group) := by
  cases h with
  | @group closing inner hdelimiters hinner after =>
      exact ⟨inner ++ [closing], after, by simp, .delimiters hdelimiters hinner⟩
  | @block first second text hopening hfirst hsecond htext hpair after =>
      refine ⟨text ++ [first, second], after, by simp, ?_⟩
      rw [hopening]
      exact .block hopening hfirst hsecond htext hpair

-- A declaration with the semicolon that ends it, and the brace of the scope around it.
structure Frame where
  inner : List Token
  semicolon : Token
  closing : Token
  after : List Token
  nested : Nested inner
  isSemicolon : semicolon.kind = .semicolon
  isClosing : closing.kind = .rBrace

namespace Frame

def behind (frame : Frame) : List Token := frame.closing :: frame.after

def tokens (frame : Frame) : List Token := frame.inner ++ frame.semicolon :: frame.behind

-- The places in the declaration, in front of the semicolon at the latest.
def Inside (frame : Frame) (place : List Token) : Prop :=
  ∃ part, part <:+ frame.inner ∧ place = part ++ frame.semicolon :: frame.behind

-- The places so many braces deep, and the one behind the declaration.
def Deep (frame : Frame) (depth : Int) (place : List Token) : Prop :=
  (frame.Inside place ∨ place = frame.behind) ∧
    braceDepth place = depth + braceDepth frame.behind

end Frame

variable {frame : Frame} {depth : Int} {token : Token} {tokens rest : List Token}

namespace Frame.Inside

theorem suffix (h : frame.Inside tokens) : tokens <:+ frame.tokens := by
  obtain ⟨part, ⟨before, hbefore⟩, rfl⟩ := h
  exact ⟨before, by rw [← List.append_assoc, hbefore, Frame.tokens]⟩

theorem closing {part : List Token} (h : part <:+ frame.inner) : Closing part := by
  obtain ⟨before, hbefore⟩ := h
  exact ⟨before, hbefore ▸ frame.nested⟩

theorem split (h : frame.Inside (token :: rest)) :
    (token = frame.semicolon ∧ rest = frame.behind) ∨
      ∃ part, token :: part <:+ frame.inner ∧ rest = part ++ frame.semicolon :: frame.behind := by
  obtain ⟨part, hpart, hplace⟩ := h
  cases part with
  | nil => exact .inl (List.cons.inj hplace)
  | cons first part =>
      obtain ⟨rfl, rfl⟩ := List.cons.inj hplace
      exact .inr ⟨part, hpart, rfl⟩

theorem tail (h : frame.Inside (token :: rest)) (hkind : token.kind ≠ .semicolon) :
    frame.Inside rest := by
  rcases h.split with ⟨rfl, _⟩ | ⟨part, hpart, rfl⟩
  · exact absurd frame.isSemicolon hkind
  · exact ⟨part, (List.suffix_cons token part).trans hpart, rfl⟩

-- Behind a single token is a place in the declaration or the one behind it.
theorem tail_or (h : frame.Inside (token :: rest)) : frame.Inside rest ∨ rest = frame.behind := by
  rcases h.split with ⟨_, hrest⟩ | ⟨part, hpart, rfl⟩
  · exact .inr hrest
  · exact .inl ⟨part, (List.suffix_cons token part).trans hpart, rfl⟩

-- A group that is opened in the declaration is closed in it.
theorem group (h : frame.Inside (token :: rest)) (hopen : token.kind.isOpen = true) :
    ∃ group after, rest = group ++ after ∧ WholeGroup token.kind (token :: group) ∧
      frame.Inside after ∧ braceDepth after = braceDepth (token :: rest) := by
  rcases h.split with ⟨rfl, _⟩ | ⟨part, hpart, rfl⟩
  · rw [frame.isSemicolon] at hopen
    cases hopen
  · obtain ⟨group, after, rfl, hgroup⟩ := ((closing hpart).closedBehind hopen).whole
    have hnone := (hgroup.nested_append .nil).braceDepth
    refine ⟨group, after ++ frame.semicolon :: frame.behind, List.append_assoc _ _ _, hgroup,
      ⟨after, ((List.suffix_append group after).trans (List.suffix_cons _ _)).trans hpart, rfl⟩, ?_⟩
    simp only [List.append_nil, braceDepth_cons, braceDepth_append] at hnone ⊢
    omega

theorem group_skipped (h : frame.Inside (token :: rest)) (hopen : token.kind.isOpen = true) :
    frame.Inside (skipGroup ending token rest).rest ∧
      braceDepth (skipGroup ending token rest).rest = braceDepth (token :: rest) := by
  obtain ⟨group, after, rfl, hgroup, hafter, hdepth⟩ := h.group hopen
  obtain ⟨_, _, hcons, _, hcloses⟩ := hgroup.closes
  obtain ⟨rfl, rfl⟩ := List.cons.inj hcons
  rw [hcloses.skipGroup_append]
  exact ⟨hafter, hdepth⟩

end Frame.Inside

variable {stops : List TokenKind}

-- Readers that stop at the semicolon of the declaration stay in front of it.
theorem Passes.inside (hstops : .semicolon ∈ stops) (h : Passes stops ending tokens rest)
    (hinside : frame.Inside tokens) : frame.Inside rest := by
  induction h with
  | here => exact hinside
  | single hkind _ ih => exact ih (hinside.tail fun hsemicolon => hkind (hsemicolon ▸ hstops))
  | group hopen _ ih => exact ih (hinside.group_skipped hopen).1

theorem LooseEnds.inside (h : LooseEnds ending tokens rest) (hinside : frame.Inside tokens) :
    frame.Inside rest ∨ rest = frame.behind := by
  cases h with
  | before h => exact .inl (h.inside List.mem_cons_self hinside)
  | behind _ h => exact (h.inside List.mem_cons_self hinside).tail_or

namespace Frame.Deep

theorem ne_nil (h : frame.Deep depth tokens) : tokens ≠ [] := by
  obtain ⟨⟨part, _, rfl⟩ | rfl, _⟩ := h
  · exact List.append_ne_nil_of_right_ne_nil part (List.cons_ne_nil _ _)
  · exact List.cons_ne_nil _ _

theorem inside (h : frame.Deep depth (token :: rest)) (hkind : token.kind ≠ .rBrace) :
    frame.Inside (token :: rest) := by
  refine h.1.resolve_right fun hbehind => ?_
  obtain ⟨rfl, -⟩ := List.cons.inj hbehind
  exact hkind frame.isClosing

theorem tail (h : frame.Deep depth tokens) (hkind : kindAt tokens ∉ [.lBrace, .rBrace]) :
    frame.Deep depth tokens.tail := by
  cases tokens with
  | nil => exact h
  | cons token rest =>
      rw [kindAt_cons] at hkind
      have hdepth := h.2
      rw [braceDepth_cons, braceStep_plain hkind, Int.zero_add] at hdepth
      exact ⟨(h.inside fun hbrace => hkind (by simp [hbrace])).tail_or, hdepth⟩

-- Into a group in braces, and out of it.
theorem enter (h : frame.Deep depth tokens) (hkind : kindAt tokens = .lBrace) :
    frame.Deep (depth + 1) tokens.tail := by
  cases tokens with
  | nil => cases hkind
  | cons token rest =>
      rw [kindAt_cons] at hkind
      have hdepth := h.2
      rw [braceDepth_cons, hkind, braceStep] at hdepth
      exact ⟨(h.inside (by rw [hkind]; decide)).tail_or, by rw [List.tail_cons]; omega⟩

theorem leave (h : frame.Deep (depth + 1) tokens) (hdeep : 0 ≤ depth)
    (hkind : kindAt tokens = .rBrace) : frame.Deep depth tokens.tail := by
  cases tokens with
  | nil => cases hkind
  | cons token rest =>
      rw [kindAt_cons] at hkind
      have hdepth := h.2
      rw [braceDepth_cons, hkind, braceStep] at hdepth
      refine ⟨h.1.elim Inside.tail_or fun hbehind => ?_, by rw [List.tail_cons]; omega⟩
      have := h.2
      rw [hbehind] at this
      omega

theorem nonneg (h : frame.Deep depth tokens) : 0 ≤ depth := by
  obtain ⟨⟨part, hpart, rfl⟩ | rfl, hdepth⟩ := h
  · have := (Inside.closing hpart).braceDepth_nonneg
    rw [braceDepth_append, braceDepth_cons, frame.isSemicolon,
      braceStep_plain (by decide)] at hdepth
    omega
  · omega

-- The declaration itself starts outside of all braces.
theorem whole (frame : Frame) : frame.Deep 0 frame.tokens := by
  refine ⟨.inl ⟨frame.inner, List.suffix_refl _, rfl⟩, ?_⟩
  rw [Frame.tokens, braceDepth_append, frame.nested.braceDepth, braceDepth_cons, frame.isSemicolon,
    braceStep_plain (by decide), Int.zero_add]

-- Outside of all braces, the next closing brace is the one behind the declaration.
theorem eq_behind (h : frame.Deep 0 tokens) (hkind : kindAt tokens = .rBrace) :
    tokens = frame.behind := by
  refine h.1.resolve_left fun hinside => ?_
  cases tokens with
  | nil => cases hkind
  | cons token rest =>
      have hdepth := h.2
      rw [kindAt_cons] at hkind
      rw [braceDepth_cons, hkind, braceStep] at hdepth
      have hless : frame.Deep (-1) rest := ⟨hinside.tail_or, by omega⟩
      have := hless.nonneg
      omega

end Frame.Deep

-- Readers that take braces in pairs only end as deep as they started.
theorem Flat.deep (h : Flat ending tokens rest) (hdeep : frame.Deep depth tokens) :
    frame.Deep depth rest := by
  induction h with
  | here => exact hdeep
  | single hkind _ ih =>
      exact ih (hdeep.tail fun hmem => hkind (List.mem_cons_of_mem _ hmem))
  | @group token rest after hopen _ ih =>
      have hbrace : token.kind ≠ .rBrace := fun hkind => by simp [hkind, TokenKind.isOpen] at hopen
      have hinside := hdeep.inside hbrace
      exact ih ⟨.inl (hinside.group_skipped hopen).1, (hinside.group_skipped hopen).2.trans hdeep.2⟩

theorem FlatEnds.deep (h : FlatEnds ending tokens rest) (hdeep : frame.Deep depth tokens) :
    frame.Deep depth rest := by
  cases h with
  | before h => exact Flat.deep h hdeep
  | behind hkind h => exact (Flat.deep h hdeep).tail (by rw [kindAt_cons, hkind]; decide)

end Frames

section Recovery

theorem recover_cons (depth : Nat) (token : Token) (rest : List Token) :
    recover depth (token :: rest) =
      if token.kind = .semicolon ∧ depth = 0 then rest
      else if token.kind = .rBrace ∧ depth ≤ 1 then
        if depth = 0 then token :: rest else skipOne .semicolon rest
      else if token.kind = .attrOpen then recover (depth + 2) rest
      else if token.kind.isOpen then recover (depth + 1) rest
      else if token.kind.isClose then recover (depth - 1) rest
      else recover depth rest := by
  rw [recover]
  cases token.kind <;> simp [TokenKind.isOpen, TokenKind.isClose]
  all_goals grind

theorem recover_open {token : Token} (hopen : token.kind.isOpen = true)
    (hplain : token.kind ≠ .attrOpen) (depth : Nat) (rest : List Token) :
    recover depth (token :: rest) = recover (depth + 1) rest := by
  rw [recover_cons, if_neg, if_neg, if_neg hplain, if_pos hopen]
  all_goals
    rintro ⟨hkind, _⟩
    simp [hkind, TokenKind.isOpen] at hopen

theorem recover_close {token : Token} (hclose : token.kind.isClose = true) {depth : Nat}
    (hdepth : token.kind = .rBrace → 1 < depth) (rest : List Token) :
    recover depth (token :: rest) = recover (depth - 1) rest := by
  rw [recover_cons, if_neg, if_neg, if_neg, if_neg, if_pos hclose]
  · intro hopen
    cases hkind : token.kind <;> simp [hkind, TokenKind.isOpen, TokenKind.isClose] at *
  · intro hkind
    simp [hkind, TokenKind.isClose] at hclose
  · rintro ⟨hkind, hle⟩
    exact absurd (hdepth hkind) (Nat.not_lt_of_le hle)
  · rintro ⟨hkind, _⟩
    simp [hkind, TokenKind.isClose] at hclose

theorem recover_attrOpen {token : Token} (hkind : token.kind = .attrOpen) (depth : Nat)
    (rest : List Token) : recover depth (token :: rest) = recover (depth + 2) rest := by
  rw [recover_cons, if_neg (by simp [hkind]), if_neg (by simp [hkind]), if_pos hkind]

theorem recover_brackets {first second : Token} (hfirst : first.kind = .rBracket)
    (hsecond : second.kind = .rBracket) (depth : Nat) (rest : List Token) :
    recover (depth + 2) (first :: second :: rest) = recover depth rest := by
  rw [recover_close (by rw [hfirst]; rfl) (by simp [hfirst]),
    recover_close (by rw [hsecond]; rfl) (by simp [hsecond])]
  rfl

-- Over properly nested tokens in a group, the count comes back to where it was.
theorem recover_nested {tokens : List Token} (h : Nested tokens) (depth : Nat)
    (rest : List Token) : recover (depth + 1) (tokens ++ rest) = recover (depth + 1) rest := by
  induction h generalizing depth rest with
  | nil => rfl
  | @token token after hopen hclose _ ih =>
      have hkind : token.kind ≠ .rBrace ∧ token.kind ≠ .attrOpen := by
        constructor <;> intro hkind <;> simp [hkind, TokenKind.isOpen, TokenKind.isClose] at *
      rw [List.cons_append, recover_cons]
      simp only [hkind, hopen, hclose, Nat.succ_ne_zero, and_false, false_and, if_false]
      exact ih depth rest
  | @group opening closing inner after hdelimiters _ _ ihinner ihafter =>
      rw [List.cons_append, recover_open hdelimiters.isOpen hdelimiters.plain, List.append_assoc,
        ihinner, List.cons_append, recover_close hdelimiters.closes.2.1 (fun _ => by omega)]
      exact ihafter depth rest
  | @block opening first second text after hopening hfirst hsecond _ _ _ ihtext ihafter =>
      rw [List.cons_append, recover_attrOpen hopening, List.append_assoc, ihtext, List.cons_append,
        List.cons_append, recover_brackets hfirst hsecond]
      exact ihafter depth rest

-- A group in braces ends the declaration that is passed over, another one does not.
theorem WholeGroup.recover {token : Token} {group : List Token}
    (h : WholeGroup token.kind (token :: group)) (rest : List Token) :
    recover 0 (token :: (group ++ rest)) =
      if token.kind = .lBrace then skipOne .semicolon rest else Header.recover 0 rest := by
  generalize hkind : token.kind = kind, hwhole : token :: group = whole at h
  cases h with
  | @delimiters opening closing inner hdelimiters hinner =>
      obtain ⟨rfl, rfl⟩ := List.cons.inj hwhole
      have hclosing := hdelimiters.closing
      rw [recover_open hdelimiters.isOpen hdelimiters.plain, List.append_assoc,
        recover_nested hinner, List.singleton_append]
      split
      · next hbrace =>
        rw [hbrace] at hclosing
        rw [recover_cons, if_neg (by simp [hclosing, closerOf]), if_pos ⟨hclosing, Nat.le_refl 1⟩,
          if_neg Nat.one_ne_zero]
      · next hbrace =>
        refine recover_close hdelimiters.closes.2.1 (fun hrBrace => ?_) rest
        rw [hclosing] at hrBrace
        unfold closerOf at hrBrace
        split at hrBrace
        · cases hrBrace
        · contradiction
        · cases hrBrace
  | @block opening first second text hopening hfirst hsecond htext _ =>
      obtain ⟨rfl, rfl⟩ := List.cons.inj hwhole
      rw [recover_attrOpen hopening, List.append_assoc, recover_nested htext, List.cons_append,
        List.singleton_append, recover_brackets hfirst hsecond, if_neg (by decide)]

variable {frame : Frame} {depth : Int} {token : Token} {tokens rest : List Token}

-- By induction on the tokens that are left: recovering goes over whole groups, and stops in front
-- of the brace that closes the scope.
theorem recover_deep {tokens : List Token} (h : frame.Deep depth tokens) :
    frame.Deep depth (recover 0 tokens) := by
  match tokens with
  | [] => exact h
  | token :: rest =>
      by_cases hbrace : token.kind = .rBrace
      · rw [recover_cons, if_neg (by simp [hbrace]), if_pos ⟨hbrace, Nat.zero_le 1⟩, if_pos rfl]
        exact h
      cases hopen : token.kind.isOpen with
      | true =>
          obtain ⟨group, after, hrest, hgroup, hafter, hdepth⟩ := (h.inside hbrace).group hopen
          have hlength : after.length ≤ rest.length := by simp [hrest]
          have hbehind : frame.Deep depth after := ⟨.inl hafter, hdepth.trans h.2⟩
          rw [hrest, hgroup.recover]
          split
          · exact FlatEnds.deep (@Ends.skipOne _ token after) hbehind
          · exact recover_deep hbehind
      | false =>
          have hplain : token.kind ∉ [.lBrace, .rBrace] := by
            simp only [List.mem_cons, List.not_mem_nil, or_false, not_or]
            exact ⟨fun hkind => by simp [hkind, TokenKind.isOpen] at hopen, hbrace⟩
          have hattribute : token.kind ≠ .attrOpen :=
            fun hkind => by simp [hkind, TokenKind.isOpen] at hopen
          have hrest := h.tail hplain
          rw [recover_cons]
          by_cases hsemicolon : token.kind = .semicolon ∧ 0 = 0
          · rw [if_pos hsemicolon]
            exact hrest
          · rw [if_neg hsemicolon]
            have hclosing : ¬(token.kind = .rBrace ∧ 0 ≤ 1) := fun hclosing => hbrace hclosing.1
            rw [if_neg hclosing, if_neg hattribute, if_neg (hopen ▸ Bool.false_ne_true)]
            split
            · exact recover_deep hrest
            · exact recover_deep hrest
termination_by tokens.length
decreasing_by all_goals simp only [List.length_cons]; omega

theorem resume_deep (h : frame.Deep depth tokens) (hbrace : kindAt tokens ≠ .rBrace)
    {next : List Token} (hnext : frame.Deep depth next)
    (hforward : kindAt tokens = .lBrace → next.length < tokens.length) :
    frame.Deep depth (resume tokens next) := by
  unfold resume
  split
  · exact hnext
  · next hstuck =>
    cases tokens with
    | nil => exact h
    | cons token rest =>
        refine h.tail ?_
        simp only [List.mem_cons, List.not_mem_nil, or_false, not_or]
        exact ⟨fun hkind => hstuck (hforward hkind), hbrace⟩

end Recovery

end Reflection.Header
