import Reflection.Proofs.Header.Alongside.Scopes
import Reflection.Proofs.Header.Courses
import Reflection.Proofs.Header.Nested

namespace Reflection.Header

variable {σ α : Type} {place : α → α}

-- Turns that go forward, and go the same way on both sides of a border.
structure Parallel (place : α → α) (turn : σ → List Token → Turn σ α) : Prop where
  suffix : ∀ state token rest, (turn state (token :: rest)).next <:+ rest
  turned : ∀ (border : Border) state token rest others, border.Beside (token :: rest) others →
    let first := turn state (token :: rest)
    let second := turn state others
    border.Stepped place (first.state = second.state) first.found second.found first.errors
      second.errors first.next second.next

-- By induction on the course. A brace in front of the border is not followed behind an error, since
-- recovering may take it for the end of the scope.
theorem Course.beside {turn : σ → List Token → Turn σ α} (hturn : Parallel place turn)
    {border : Border} {kind : TokenKind} (hends : border.ends kind) {state last : σ}
    {tokens others : List Token} {found : List α} {errors : List ParseError}
    (hclean : border.ends .rBrace → errors = [])
    (h : Course turn state tokens found errors last border.tail)
    (hbeside : border.Beside tokens others) :
    ∃ more reports, Course turn state others more reports last border.other ∧
      found.map place = more.map place ∧
      errors.map ParseError.unplaced = reports.map ParseError.unplaced := by
  generalize htail : border.tail = tail at h
  induction h generalizing others with
  | here state tokens =>
      have hlt := hbeside.length_lt hends
      rw [htail] at hlt
      exact absurd hlt (Nat.lt_irrefl _)
  | @behind state last token rest tail found errors hbrace hcourse ih =>
      subst htail
      obtain ⟨second, after, rfl, halike, _⟩ := hbeside.next
      have hother : second.kind ≠ .rBrace := halike.kind ▸ hbrace
      have hnone : border.ends .rBrace →
          (turn state (token :: rest)).errors = [] ∧ errors = [] := fun hends =>
        List.append_eq_nil_iff.mp (hclean hends)
      cases hturn.turned border state token rest _ hbeside with
      | beyond hlt =>
          exact absurd (hcourse.suffix hturn.suffix).length_le (Nat.not_le_of_lt hlt)
      | stuck hends herrors => exact absurd (hnone hends).1 herrors
      | meets hstate hfound herrors hmeets =>
          have hgo {more : List α} {reports : List ParseError}
              (hfirst : found.map place = more.map place)
              (hreports : errors.map ParseError.unplaced = reports.map ParseError.unplaced)
              (hmore : Course turn (turn state (second :: after)).state
                (turn state (second :: after)).next more reports last border.other) :
              ∃ more reports, Course turn state (second :: after) more reports last border.other ∧
                ((turn state (token :: rest)).found ++ found).map place = more.map place ∧
                ((turn state (token :: rest)).errors ++ errors).map ParseError.unplaced =
                  reports.map ParseError.unplaced := by
            refine ⟨_, _, .behind hother hmore, ?_, ?_⟩
            · rw [List.map_append, List.map_append, hfound, hfirst]
            · rw [List.map_append, List.map_append, herrors, hreports]
          generalize (turn state (token :: rest)).next = next at hmeets hcourse ih
          generalize hfollowing : (turn state (second :: after)).next = following at hmeets
          cases hmeets with
          | finished hend =>
              obtain ⟨rfl, rfl, hlast⟩ := hcourse.eq_here (border.tail_kind _ hend)
              refine hgo rfl rfl ?_
              rw [hfollowing, hlast, hstate]
              exact .here _ _
          | beside hnext =>
              obtain ⟨more, reports, hmore, hfirst, hreports⟩ :=
                ih (fun hends => (hnone hends).2) hnext rfl
              rw [← hfollowing, hstate] at hmore
              exact hgo hfirst hreports hmore

section Turns

variable {border : Border} {ending token : Token} {rest others : List Token}

theorem Border.Stepped.resume {α : Type} {place : α → α} {same also : Prop} {found more : List α}
    {errors reports : List ParseError} {next following : List Token} (himplies : same → also)
    (hbeside : border.Beside (token :: rest) others)
    (h : border.Stepped place same found more errors reports next following) :
    border.Stepped place also found more errors reports (resume (token :: rest) next)
      (resume others following) := by
  cases h with
  | beyond hlt =>
      have hle := hbeside.tail_suffix.length_le
      refine .beyond ?_
      rwa [Header.resume, if_pos (by omega)]
  | stuck hends herrors => exact .stuck hends herrors
  | meets hsame hfound herrors hmeets =>
      exact .meets (himplies hsame) hfound herrors
        (hmeets.resume hbeside (List.cons_ne_nil token rest))

theorem scopeTurn_parallel : Parallel Entity.unplaced (scopeTurn ending) where
  suffix := scopeTurn_suffix
  turned := by
    intro border _ token rest others h
    have hitem : (scopeItem .tolerant ending (token :: rest)).Ends border
        (List.map Entity.unplaced) (scopeItem .tolerant ending others) :=
      scopeItem_ends (fun inner after _ hinner => scope_along true inner after hinner) h
    exact hitem.stepped.resume (fun _ => rfl) h

theorem bodyTurn_parallel (name : Option String) :
    Parallel Member.unplaced (bodyTurn ending name) where
  suffix := bodyTurn_suffix
  turned := by
    intro border access token rest others h
    have hstep : (memberStep .tolerant ending name access (token :: rest)).Ends border
        (memberStep .tolerant ending name access others) :=
      memberStep_ends name access (classesEnd _) h
    exact hstep.stepped.resume id h

end Turns

end Reflection.Header
