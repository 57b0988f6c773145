import Reflection.Proofs.Header.Alongside.Types

namespace Reflection.Header

variable {α β γ δ : Type} {bound more larger further : Nat} {border : Border}
  {tokens others : List Token}

-- An outcome without places.
def outcomeAs (value : α → γ) : Except ParseError α → Except ParseError γ
  | .ok first => .ok (value first)
  | .error error => .error error.unplaced

namespace Recorded

theorem errors_map (f : α → β) (read : Recorded α bound) : (read.map f).errors = read.errors := by
  unfold errors Recorded.map
  cases read.outcome <;> rfl

theorem errors_ofRead {read : Read α} {error : ParseError} {rest : List Token}
    (hread : read = .failed error rest) (hle : read.rest.length ≤ bound) :
    (ofRead read hle).errors = [error] := by
  subst hread
  rfl

theorem andThen_error {read : Recorded α bound} {error : ParseError}
    (h : read.outcome = .error error) (next : α → List Token → Read β)
    (hnext : ∀ value tokens, (next value tokens).rest.length ≤ tokens.length) :
    read.andThen next hnext = ⟨.error error, read.recovered, read.rest, read.rest_le⟩ := by
  unfold andThen
  rw [h]

-- Both readings give and report the same, and leave the same.
structure Beside (border : Border) (value : α → γ) (read : Recorded α bound)
    (other : Recorded α more) : Prop where
  outcome : outcomeAs value read.outcome = outcomeAs value other.outcome
  recovered : read.recovered.map ParseError.unplaced = other.recovered.map ParseError.unplaced
  rest : border.Beside read.rest other.rest

-- What holds of a reading of whole declarations, as for readers without reports.
inductive Ends (border : Border) (value : α → γ) (read : Recorded α bound)
    (other : Recorded α more) : Prop where
  | beyond (h : read.rest.length < border.tail.length)
  | stuck (hends : border.ends .rBrace) (herrors : read.errors ≠ [])
  | beside (h : Beside border value read other)
  | finished {kind : TokenKind} {first second : α} (hends : border.ends kind)
      (hread : read.outcome = .ok first) (hother : other.outcome = .ok second)
      (hvalue : value first = value second)
      (hrecovered : read.recovered.map ParseError.unplaced =
        other.recovered.map ParseError.unplaced)
      (hrest : read.rest = border.tail) (hmore : other.rest = border.other)

variable {value : α → γ} {result : β → δ} {read : Recorded α bound} {other : Recorded α more}

theorem Ends.within (hle : bound ≤ larger) (hmore : more ≤ further)
    (h : read.Ends border value other) :
    (read.within hle).Ends border value (other.within hmore) := by
  cases h with
  | beyond h => exact .beyond h
  | stuck hends herrors => exact .stuck hends herrors
  | beside h => exact .beside ⟨h.outcome, h.recovered, h.rest⟩
  | finished hends hread hother hvalue hrecovered hrest hmore =>
      exact .finished hends hread hother hvalue hrecovered hrest hmore

theorem outcomeAs_map {first second : Except ParseError α} (f g : α → β)
    (hresult : ∀ first second, value first = value second → result (f first) = result (g second))
    (h : outcomeAs value first = outcomeAs value second) :
    outcomeAs result (first.map f) = outcomeAs result (second.map g) := by
  cases first with
  | error error =>
      cases second with
      | error other => exact congrArg Except.error (Except.error.inj h)
      | ok value => cases h
  | ok first =>
      cases second with
      | error other => cases h
      | ok second => exact congrArg Except.ok (hresult _ _ (Except.ok.inj h))

theorem Ends.map (f g : α → β)
    (hresult : ∀ first second, value first = value second → result (f first) = result (g second))
    (h : read.Ends border value other) : (read.map f).Ends border result (other.map g) := by
  cases h with
  | beyond h => exact .beyond h
  | stuck hends herrors => exact .stuck hends (by rwa [errors_map])
  | beside h => exact .beside ⟨outcomeAs_map f g hresult h.outcome, h.recovered, h.rest⟩
  | finished hends hread hother hvalue hrecovered hrest hmore =>
      refine .finished hends ?_ ?_ (hresult _ _ hvalue) hrecovered hrest hmore
      · rw [Recorded.map, hread]
        rfl
      · rw [Recorded.map, hother]
        rfl

theorem ends_ofRead {kinds : TokenKind → Prop} {read other : Read α}
    (hle : read.rest.length ≤ bound) (hmore : other.rest.length ≤ more)
    (h : read.Follows border kinds value other) :
    (ofRead read hle).Ends border value (ofRead other hmore) := by
  cases h with
  | beyond h => exact .beyond h
  | stuck hends _ => exact .stuck hends (by simp [errors, ofRead])
  | finished hends _ hvalue => exact .finished hends rfl rfl hvalue rfl rfl rfl
  | beside h =>
      cases h with
      | done hvalue hrest => exact .beside ⟨congrArg Except.ok hvalue, rfl, hrest⟩
      | failed herror hrest => exact .beside ⟨congrArg Except.error herror, rfl, hrest⟩

-- A reading with reports behind one without, which may come to the border first.
theorem Ends.after {kinds : TokenKind → Prop} {read other : Read α}
    {next following : α → (tokens : List Token) → Recorded β tokens.length}
    (hle : read.rest.length ≤ bound) (hmore : other.rest.length ≤ more)
    (hfinished : ∀ kind first second, border.ends kind → kinds kind →
      read = .done first border.tail → value first = value second →
      (next first border.tail).Ends border result (following second border.other))
    (hnext : ∀ first second after others, after.length ≤ bound → value first = value second →
      border.Beside after others →
      (next first after).Ends border result (following second others))
    (h : read.Follows border kinds value other) :
    (Recorded.after read hle next).Ends border result (Recorded.after other hmore following) := by
  cases h with
  | beyond h =>
      refine .beyond (Nat.lt_of_le_of_lt ?_ h)
      cases read with
      | done first after => exact (next first after).rest_le
      | failed error after => exact Nat.le_refl _
  | stuck hends _ => exact .stuck hends (by simp [Recorded.after, errors])
  | finished hends hkind hvalue =>
      exact (hfinished _ _ _ hends hkind rfl hvalue).within hle hmore
  | beside h =>
      cases h with
      | done hvalue hrest => exact (hnext _ _ _ _ hle hvalue hrest).within hle hmore
      | failed herror hrest => exact .beside ⟨congrArg Except.error herror, rfl, hrest⟩

theorem errors_andThen {next : α → List Token → Read β}
    {hnext : ∀ value tokens, (next value tokens).rest.length ≤ tokens.length}
    (h : read.errors ≠ []) : (read.andThen next hnext).errors ≠ [] := by
  cases houtcome : read.outcome with
  | error error =>
      rw [andThen_error houtcome]
      simp [errors]
  | ok value =>
      have hrecovered : read.recovered ≠ [] := by rwa [errors, houtcome] at h
      rw [andThen_ok houtcome, errors_behind]
      simp [hrecovered]

-- What goes on at the border and breaks there.
theorem Ends.of_breaks {next : α → List Token → Read β}
    {hnext : ∀ value tokens, (next value tokens).rest.length ≤ tokens.length}
    {other : Recorded β larger} (hends : border.ends .rBrace) (hrest : read.rest = border.tail)
    (hbreaks : ∀ first, border.Breaks (next first border.tail)) :
    (read.andThen next hnext).Ends border result other := by
  cases houtcome : read.outcome with
  | error error =>
      rw [andThen_error houtcome]
      exact .stuck hends (by simp [errors])
  | ok first =>
      rw [andThen_ok houtcome]
      rcases hbreaks first with hlt | ⟨error, rest, hread, _⟩
      · refine .beyond ?_
        rw [← hrest] at hlt ⊢
        exact hlt
      · refine .stuck hends ?_
        rw [← hrest] at hread
        rw [errors_behind, errors_ofRead hread]
        simp

theorem rest_andThen_le {next : α → List Token → Read β}
    {hnext : ∀ value tokens, (next value tokens).rest.length ≤ tokens.length} :
    (read.andThen next hnext).rest.length ≤ read.rest.length := by
  unfold andThen
  split
  · exact Nat.le_refl _
  · exact hnext _ _

-- What is read behind the contents of a scope or body, on both sides.
theorem Beside.andThen {kinds : TokenKind → Prop} {next following : α → List Token → Read β}
    {hnext : ∀ value tokens, (next value tokens).rest.length ≤ tokens.length}
    {hfollowing : ∀ value tokens, (following value tokens).rest.length ≤ tokens.length}
    (hends : ∀ first second, value first = value second →
      (next first read.rest).Follows border kinds result (following second other.rest))
    (h : read.Beside border value other) :
    (read.andThen next hnext).Ends border result (other.andThen following hfollowing) := by
  have houtcome := h.outcome
  cases hread : read.outcome with
  | error error =>
      cases hother : other.outcome with
      | ok second =>
          rw [hread, hother] at houtcome
          cases houtcome
      | error second =>
          rw [hread, hother] at houtcome
          rw [andThen_error hread, andThen_error hother]
          exact .beside ⟨congrArg Except.error (Except.error.inj houtcome), h.recovered, h.rest⟩
  | ok first =>
      cases hother : other.outcome with
      | error second =>
          rw [hread, hother] at houtcome
          cases houtcome
      | ok second =>
          rw [hread, hother] at houtcome
          have hnext := ends_ofRead (Nat.le_trans (hnext first read.rest) read.rest_le)
            (Nat.le_trans (hfollowing second other.rest) other.rest_le)
            (hends first second (Except.ok.inj houtcome))
          rw [andThen_ok hread, andThen_ok hother]
          cases hnext with
          | beyond h => exact .beyond h
          | stuck hends herrors => exact .stuck hends (by simp [errors_behind, herrors])
          | beside hbeside =>
              refine .beside ⟨hbeside.outcome, ?_, hbeside.rest⟩
              simp only [behind, List.map_append, h.recovered, hbeside.recovered]
          | finished hends hread hother hvalue hrecovered hrest hmore =>
              refine .finished hends hread hother hvalue ?_ hrest hmore
              simp only [behind, List.map_append, h.recovered, hrecovered]

end Recorded

section Steps

variable {place : α → α} {found more : List α} {errors reports : List ParseError}
  {next following : List Token}

-- One declaration of a scope or body on both sides, and where reading goes on behind it, perhaps
-- in the same access.
inductive Border.Stepped (border : Border) (place : α → α) (same : Prop) (found more : List α)
    (errors reports : List ParseError) (next following : List Token) : Prop where
  | beyond (h : next.length < border.tail.length)
  | stuck (hends : border.ends .rBrace) (herrors : errors ≠ [])
  | meets (hsame : same) (hfound : found.map place = more.map place)
      (herrors : errors.map ParseError.unplaced = reports.map ParseError.unplaced)
      (hnext : border.Meets next following)

namespace Recorded

theorem Ends.stepped {read : Recorded (List α) bound} {other : Recorded (List α) larger}
    (h : read.Ends border (List.map place) other) :
    border.Stepped place True read.found other.found read.errors other.errors read.next
      other.next := by
  cases h with
  | beyond h => exact .beyond (Nat.lt_of_le_of_lt read.next_suffix.length_le h)
  | stuck hends herrors => exact .stuck hends herrors
  | finished hends hread hother hvalue hrecovered hrest hmore =>
      unfold found errors Recorded.next
      rw [hread, hother, hrest, hmore]
      exact .meets trivial hvalue hrecovered (.finished hends)
  | beside h =>
      have houtcome := h.outcome
      unfold found errors Recorded.next
      cases hread : read.outcome with
      | ok first =>
          cases hother : other.outcome with
          | error second =>
              rw [hread, hother] at houtcome
              cases houtcome
          | ok second =>
              rw [hread, hother] at houtcome
              exact .meets trivial (Except.ok.inj houtcome) h.recovered (.beside h.rest)
      | error first =>
          cases hother : other.outcome with
          | ok second =>
              rw [hread, hother] at houtcome
              cases houtcome
          | error second =>
              rw [hread, hother] at houtcome
              rcases recover_meets 0 h.rest with (hlt | ⟨hends, _⟩) | hmeets
              · exact .beyond hlt
              · exact .stuck hends (by simp)
              · refine .meets trivial rfl ?_ hmeets
                rw [List.map_append, List.map_append, h.recovered, List.map_cons, List.map_cons,
                  Except.error.inj houtcome]

-- The declarations of a scope or body on both sides: in the end the first reading is behind the
-- border, or both have come to it and go on with what follows there. The brace in front of the
-- border may close a class, which is not complete then.
inductive Along (border : Border) (place : α → α) {origin : Type}
    (tails : origin → Recorded (List α) border.tail.length)
    (others : origin → Recorded (List α) border.other.length)
    (read : Recorded (List α) bound) (other : Recorded (List α) larger) : Prop where
  | beyond (h : read.rest.length < border.tail.length)
  | stuck (hends : border.ends .rBrace) (herrors : read.errors ≠ [])
  | closed (hends : border.ends .rBrace) (hrest : read.rest = border.tail)
  | beside (h : Beside border (List.map place) read other)
  | reached {kind : TokenKind} {found more : List α} {errors reports : List ParseError}
      (from_ : origin) (hends : border.ends kind) (hfound : found.map place = more.map place)
      (herrors : errors.map ParseError.unplaced = reports.map ParseError.unplaced)
      (hread : Extends found errors (tails from_) read)
      (hother : Extends more reports (others from_) other)

variable {origin : Type} {tails : origin → Recorded (List α) border.tail.length}
  {ahead : origin → Recorded (List α) border.other.length}

theorem Along.here {kind : TokenKind} (from_ : origin) (hends : border.ends kind) :
    Along border place tails ahead (tails from_) (ahead from_) :=
  .reached from_ hends rfl rfl (.refl _) (.refl _)

theorem Along.extend {first second third fourth : Nat} {read : Recorded (List α) first}
    {other : Recorded (List α) second} {all : Recorded (List α) third}
    {whole : Recorded (List α) fourth} (hread : Extends found errors read all)
    (hother : Extends more reports other whole) (hfound : found.map place = more.map place)
    (herrors : errors.map ParseError.unplaced = reports.map ParseError.unplaced)
    (h : Along border place tails ahead read other) :
    Along border place tails ahead all whole := by
  cases h with
  | beyond h => exact .beyond (by rwa [hread.rest])
  | stuck hends h => exact .stuck hends (by simp [hread.errors_eq, h])
  | closed hends h => exact .closed hends (hread.rest.trans h)
  | reached from_ hends hvalues hreports hfirst hsecond =>
      refine .reached from_ hends ?_ ?_ (hread.trans hfirst) (hother.trans hsecond)
      · rw [List.map_append, List.map_append, hfound, hvalues]
      · rw [List.map_append, List.map_append, herrors, hreports]
  | beside h =>
      refine .beside ⟨?_, ?_, ?_⟩
      · rw [hread.outcome, hother.outcome]
        refine outcomeAs_map _ _ (fun first second hvalue => ?_) h.outcome
        rw [List.map_append, List.map_append, hfound, hvalue]
      · rw [hread.recovered, hother.recovered, List.map_append, List.map_append, herrors,
          h.recovered]
      · rw [hread.rest, hother.rest]
        exact h.rest

-- A declaration, and then the others.
theorem Along.of_stepped {same : Prop} {read : Recorded (List α) (resume tokens next).length}
    {other : Recorded (List α) (resume others following).length} {all : Recorded (List α) bound}
    {whole : Recorded (List α) larger} (hbeside : border.Beside tokens others)
    (hne : tokens ≠ []) (hread : Extends found errors read all)
    (hother : Extends more reports other whole)
    (hnext : same → border.Meets (resume tokens next) (resume others following) →
      Along border place tails ahead read other)
    (hstep : border.Stepped place same found more errors reports next following) :
    Along border place tails ahead all whole := by
  cases hstep with
  | meets hsame hfound herrors hmeets =>
      exact .extend hread hother hfound herrors (hnext hsame (hmeets.resume hbeside hne))
  | stuck hends herrors => exact .stuck hends (by simp [hread.errors_eq, herrors])
  | beyond hlt =>
      refine .beyond ?_
      have hle := hbeside.tail_suffix.length_le
      have hresume : (resume tokens next).length = next.length := by
        rw [resume, if_pos (by omega)]
      have hrest := read.rest_le
      rw [hread.rest]
      omega

end Recorded

end Steps

end Reflection.Header
