import Reflection.Proofs.Header.Loops

namespace Reflection.Header

variable {σ α : Type}

-- What a declaration gives, and where reading goes on behind it.
structure Turn (σ α : Type) where
  found : List α
  errors : List ParseError
  state : σ
  next : List Token

-- From a place to another one, in front of a declaration each, with what has been found and
-- reported in between.
inductive Course (turn : σ → List Token → Turn σ α) :
    σ → List Token → List α → List ParseError → σ → List Token → Prop where
  | here (state : σ) (tokens : List Token) : Course turn state tokens [] [] state tokens
  | behind {state last : σ} {token : Token} {rest tail : List Token} {found : List α}
      {errors : List ParseError} (hbrace : token.kind ≠ .rBrace)
      (h : Course turn (turn state (token :: rest)).state (turn state (token :: rest)).next found
        errors last tail) :
      Course turn state (token :: rest) ((turn state (token :: rest)).found ++ found)
        ((turn state (token :: rest)).errors ++ errors) last tail

namespace Course

variable {turn : σ → List Token → Turn σ α} {state last final : σ}
  {tokens rest tail : List Token} {found more : List α} {errors reports : List ParseError}

theorem trans (h : Course turn state tokens found errors last rest)
    (hmore : Course turn last rest more reports final tail) :
    Course turn state tokens (found ++ more) (errors ++ reports) final tail := by
  induction h with
  | here => exact hmore
  | behind hbrace _ ih =>
      rw [List.append_assoc, List.append_assoc]
      exact .behind hbrace (ih hmore)

-- What every turn keeps, the course keeps.
theorem keeps (P : List Token → Prop)
    (hturn : ∀ state token rest, token.kind ≠ .rBrace → P (token :: rest) →
      P (turn state (token :: rest)).next)
    (h : Course turn state tokens found errors last tail) (htokens : P tokens) : P tail := by
  induction h with
  | here => exact htokens
  | behind hbrace _ ih => exact ih (hturn _ _ _ hbrace htokens)

theorem suffix (hturn : ∀ state token rest, (turn state (token :: rest)).next <:+ rest)
    (h : Course turn state tokens found errors last tail) : tail <:+ tokens := by
  refine h.keeps (· <:+ tokens) (fun state token rest _ hplace => ?_) (List.suffix_refl tokens)
  exact (hturn state token rest).trans ((List.suffix_cons token rest).trans hplace)

-- A course that has come to a closing brace goes no further.
theorem eq_here (h : Course turn state tokens found errors last tail)
    (hbrace : kindAt tokens = .rBrace) : found = [] ∧ errors = [] ∧ last = state := by
  cases h with
  | here => exact ⟨rfl, rfl, rfl⟩
  | behind hne _ => exact absurd hbrace hne

-- Every declaration leaves fewer tokens, so the course ends.
theorem exists_end (hturn : ∀ state token rest, (turn state (token :: rest)).next <:+ rest)
    (state : σ) (tokens : List Token) :
    ∃ found errors last tail, Course turn state tokens found errors last tail ∧
      (tail = [] ∨ kindAt tail = .rBrace) := by
  match tokens with
  | [] => exact ⟨[], [], state, [], .here state [], .inl rfl⟩
  | token :: rest =>
      by_cases hbrace : token.kind = .rBrace
      · exact ⟨[], [], state, token :: rest, .here state _, .inr hbrace⟩
      · have hlength := (hturn state token rest).length_le
        obtain ⟨found, errors, last, tail, hcourse, hend⟩ :=
          exists_end hturn (turn state (token :: rest)).state (turn state (token :: rest)).next
        exact ⟨_, _, last, tail, .behind hbrace hcourse, hend⟩
termination_by tokens.length
decreasing_by
  simp only [List.length_cons]
  omega

end Course

section Scopes

def scopeTurn (ending : Token) (_ : Unit) (tokens : List Token) : Turn Unit Entity :=
  let item := scopeItem .tolerant ending tokens
  ⟨item.found, item.errors, (), resume tokens item.next⟩

variable {ending token : Token} {tokens rest tail : List Token} {found : List Entity}
  {errors : List ParseError}

theorem scopeTurn_suffix (state : Unit) (token : Token) (rest : List Token) :
    (scopeTurn ending state (token :: rest)).next <:+ rest := by
  have hitem := @scopeItem_stays ending (token :: rest) .tolerant
    fun inner _ => scope_stays .tolerant true inner
  exact resume_forward ((Recorded.next_suffix _).trans (Reported.suffix hitem))

-- What a scope gives is what has been found on the way, and then what it gives from there on.
theorem scope_course (nested : Bool) {state last : Unit}
    (h : Course (scopeTurn ending) state tokens found errors last tail) :
    Recorded.Extends found errors (scope .tolerant ending nested tail)
      (scope .tolerant ending nested tokens) := by
  induction h with
  | here => exact .refl _
  | behind hbrace _ ih => exact (scope_extends nested hbrace (.inl rfl)).trans ih

-- The course of a scope ends where the scope does.
theorem exists_scope_course (htail : (scope .tolerant ending true tokens).rest = tail) :
    ∃ found errors, Course (scopeTurn ending) () tokens found errors () tail := by
  obtain ⟨found, errors, _, final, hcourse, hend⟩ :=
    Course.exists_end (@scopeTurn_suffix ending) () tokens
  have hrest : (scope .tolerant ending true final).rest = final := by
    rcases hend with rfl | hbrace
    · rw [scope_nil]
    · cases final with
      | nil => cases hbrace
      | cons token rest => rw [scope_rBrace .tolerant ending true hbrace]
  rw [(scope_course true hcourse).rest, hrest] at htail
  exact ⟨found, errors, htail ▸ hcourse⟩

end Scopes

section Bodies

def bodyTurn (ending : Token) (name : Option String) (access : Access) (tokens : List Token) :
    Turn Access Member :=
  let step := memberStep .tolerant ending name access tokens
  ⟨step.members, step.errors, step.access, resume tokens step.next⟩

variable {ending : Token} {name : Option String} {access last : Access} {tokens tail : List Token}
  {found : List Member} {errors : List ParseError}

theorem bodyTurn_suffix (access : Access) (token : Token) (rest : List Token) :
    (bodyTurn ending name access (token :: rest)).next <:+ rest := by
  have hstep := @memberStep_stays ending (token :: rest) .tolerant name access
    fun annotations isTemplate keyword inner _ =>
      classDeclaration_stays annotations isTemplate keyword inner
  exact resume_forward ((MemberStep.next_suffix _).trans (Reported.suffix hstep))

theorem classBody_course
    (h : Course (bodyTurn ending name) access tokens found errors last tail) :
    Recorded.Extends found errors (classBody .tolerant ending name last tail)
      (classBody .tolerant ending name access tokens) := by
  induction h with
  | here => exact .refl _
  | @behind access last token rest tail found errors hbrace _ ih =>
      exact (classBody_extends name access hbrace (.inl rfl)).trans ih

-- The course of a body ends at the brace that closes the body.
theorem exists_body_course
    (htail : (classBody .tolerant ending name access tokens).rest = tail) (hne : tail ≠ []) :
    ∃ brace found errors last, brace.kind = .rBrace ∧
      Course (bodyTurn ending name) access tokens found errors last (brace :: tail) := by
  obtain ⟨found, errors, last, final, hcourse, hend⟩ :=
    Course.exists_end (@bodyTurn_suffix ending name) access tokens
  rw [(classBody_course hcourse).rest] at htail
  cases final with
  | nil =>
      rw [classBody] at htail
      exact absurd htail.symm hne
  | cons brace rest =>
      have hbrace : brace.kind = .rBrace := hend.resolve_left (List.cons_ne_nil brace rest)
      rw [classBody_rBrace .tolerant ending name last hbrace] at htail
      exact ⟨brace, found, errors, last, hbrace, htail ▸ hcourse⟩

end Bodies

end Reflection.Header
