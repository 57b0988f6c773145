import Reflection.Proofs.Header.Alongside

namespace Reflection.Header

variable {border : Border} {ending finish opening first : Token} {tokens others : List Token}

theorem Alike.spelled {token other : Token} (h : Alike token other)
    (hlead : token.lead = other.lead) : token.spelled = other.spelled := by
  rw [Token.spelled, Token.spelled, hlead, h.text]

theorem Alike.word {token other : Token} (h : Alike token other) : token.word = other.word := by
  rw [Token.word, Token.word, h.text]

-- A reader that passes a `;` does not stop behind it.
theorem attributeBlock_length_lt (text : List Char) (hne : tokens ≠ []) :
    (attributeBlock ending opening text tokens).rest.length < tokens.length := by
  cases tokens with
  | nil => exact absurd rfl hne
  | cons token rest =>
      have hsuffix := attributeBlock_suffix ending opening (text ++ token.spelled) rest
      rw [attributeBlock]
      split
      · simp only [Read.rest_done, List.length_tail, List.length_cons]
        omega
      · exact Nat.lt_succ_of_le hsuffix.length_le

theorem nestedGroup_length_lt (depth : Nat) (hne : tokens ≠ []) :
    (nestedGroup ending opening depth tokens).rest.length < tokens.length := by
  cases tokens with
  | nil => exact absurd rfl hne
  | cons token rest =>
      have hgroup := fun depth => (nestedGroup_suffix ending opening depth rest).length_le
      rw [nestedGroup]
      split
      · have hblock := (attributeBlock_suffix ending token [] rest).length_le
        split
        · next block after hread =>
          rw [hread] at hblock
          have hafter := (nestedGroup_suffix ending opening depth after).length_le
          exact Nat.lt_succ_of_le (Nat.le_trans hafter hblock)
        · next error after hread =>
          rw [hread] at hblock
          exact Nat.lt_succ_of_le hblock
      · split
        · exact Nat.lt_succ_of_le (hgroup _)
        · split
          · split
            · exact Nat.lt_succ_self _
            · exact Nat.lt_succ_of_le (hgroup _)
          · exact Nat.lt_succ_of_le (hgroup _)

theorem attributeBlock_follows {kinds : TokenKind → Prop} (text : List Char)
    (hleads : border.Leads tokens others) (h : border.Beside tokens others) :
    (attributeBlock ending opening text tokens).Follows border kinds AnnotationBlock.unplaced
      (attributeBlock finish first text others) := by
  induction tokens generalizing text others with
  | nil =>
      rw [h.eq_nil]
      exact .beside (.failed rfl (h.eq_nil ▸ h))
  | cons token rest ih =>
      obtain ⟨other, after, rfl, halike, hrest⟩ := h.next
      rcases hrest with hrest | ⟨hends, rfl, _⟩
      · have hshort := hrest.tail_suffix.length_le
        rw [attributeBlock, attributeBlock, ← halike.kind, ← hrest.kindAt_eq]
        generalize hleft : token :: rest = left at hleads
        generalize hright : other :: after = right at hleads
        cases hleads with
        | border =>
            rw [← hleft, List.length_cons] at hshort
            omega
        | closed hlead hclose =>
            obtain ⟨rfl, rfl⟩ := List.cons.inj hleft
            obtain ⟨rfl, rfl⟩ := List.cons.inj hright
            rw [if_pos hclose, if_pos hclose, hlead]
            refine .beside (.done rfl (hrest.tail ?_ ?_)) <;> rw [hclose.2] <;> decide
        | cons hlead hmore =>
            obtain ⟨rfl, rfl⟩ := List.cons.inj hleft
            obtain ⟨rfl, rfl⟩ := List.cons.inj hright
            rw [← halike.spelled hlead, ← hlead]
            split
            · next hclose =>
              refine .beside (.done rfl (hrest.tail ?_ ?_)) <;> rw [hclose.2] <;> decide
            · exact ih _ hmore hrest
      · -- the attribute is still open at the border
        apply Read.Follows.beyond
        have hlt : (attributeBlock ending opening (text ++ token.spelled) border.tail).rest.length <
            border.tail.length := attributeBlock_length_lt _ (border.tail_ne_nil hends)
        rw [attributeBlock]
        split
        · next hclose =>
          rcases border.ends_kind _ hends with hkind | hkind <;>
            exact absurd (hkind.symm.trans hclose.1) (by decide)
        · exact hlt

theorem attributeBlock_tracks (text : List Char) (hleads : border.Leads tokens others)
    (h : border.Beside tokens others) :
    (attributeBlock ending opening text tokens).Tracks border AnnotationBlock.unplaced
      (attributeBlock finish first text others) := (attributeBlock_follows text hleads h).tracks

theorem nestedGroup_follows {tokens others : List Token} (depth : Nat)
    (h : border.Beside tokens others) :
    (nestedGroup ending opening depth tokens).Follows border (· = .rBrace) id
      (nestedGroup finish first depth others) := by
  match tokens with
  | [] =>
      rw [h.eq_nil, nestedGroup, nestedGroup]
      exact .beside (.failed rfl (h.eq_nil ▸ h))
  | token :: rest =>
      obtain ⟨other, after, rfl, halike, hrest⟩ := h.next
      rw [nestedGroup_cons, nestedGroup_cons, ← halike.kind]
      rcases hrest with hrest | ⟨hends, rfl, rfl⟩
      · split
        · next hkind =>
          refine (attributeBlock_tracks [] (h.leads hkind) hrest).follow hrest
            (attributeBlock_suffix ending token [] rest)
            (fun _ inner => nestedGroup_suffix ending opening depth inner) (fun _ hends => ?_)
            fun _ _ inner _ hle _ hinner => nestedGroup_follows depth hinner
          exact .inl (nestedGroup_length_lt depth (border.tail_ne_nil hends))
        · split
          · exact nestedGroup_follows (depth + 1) hrest
          · split
            · split
              · exact .beside (.done rfl hrest)
              · exact nestedGroup_follows (depth - 1) hrest
            · exact nestedGroup_follows depth hrest
      · have hlt : ∀ depth, (nestedGroup ending opening depth border.tail).rest.length <
            border.tail.length := fun depth => nestedGroup_length_lt depth (border.tail_ne_nil hends)
        rcases border.ends_kind _ hends with hkind | hkind
        · rw [hkind]
          exact .beyond (hlt depth)
        · rw [hkind] at hends ⊢
          dsimp only [TokenKind.isOpen, TokenKind.isClose]
          simp only [reduceCtorEq, if_false, if_true, Bool.false_eq_true]
          split
          · exact .finished hends rfl rfl
          · exact .beyond (hlt (depth - 1))
termination_by tokens.length

theorem skipGroup_follows (halike : Alike opening first)
    (hleads : opening.kind = .attrOpen → border.Leads tokens others)
    (h : border.Beside tokens others) :
    (skipGroup ending opening tokens).Follows border (· = .rBrace) id
      (skipGroup finish first others) := by
  unfold skipGroup
  rw [← halike.kind]
  split
  · next hkind => exact (attributeBlock_follows [] (hleads hkind) h).map _ _ fun _ _ _ => rfl
  · exact nestedGroup_follows 1 h

theorem skipParens_tracks (h : border.Beside tokens others) :
    (skipParens ending tokens).Tracks border id (skipParens finish others) := by
  cases tokens with
  | nil =>
      rw [h.eq_nil]
      exact .inr (.done rfl (h.eq_nil ▸ h))
  | cons token rest =>
      obtain ⟨other, after, rfl, halike, _⟩ := h.next
      rw [skipParens, skipParens, ← halike.kind]
      split
      · next hkind =>
        exact (skipGroup_follows halike h.leads
          (h.tail_of_kind hkind (by decide) (by decide))).tracks
      · exact .inr (.done rfl h)

theorem skipAngles_breaks {kind : TokenKind} (hends : border.ends kind) (depth : Nat) :
    border.Breaks (skipAngles ending opening depth border.tail) := by
  obtain ⟨token, rest, htail, hkind⟩ := border.tail_eq_cons hends
  rw [htail]
  refine .inr ⟨.unterminated .templateArguments opening.span, token :: rest, ?_,
    htail ▸ Nat.le_refl _⟩
  rw [skipAngles_cons, hkind]

-- Template arguments end with a `>`, so not at the border.
theorem skipAngles_follows {kinds : TokenKind → Prop} {tokens others : List Token} (depth : Nat)
    (h : border.Beside tokens others) :
    (skipAngles ending opening depth tokens).Follows border kinds id
      (skipAngles finish first depth others) := by
  match tokens with
  | [] =>
      rw [h.eq_nil, skipAngles, skipAngles]
      exact .beside (.failed rfl (h.eq_nil ▸ h))
  | token :: rest =>
      obtain ⟨other, after, rfl, halike, _⟩ := h.next
      rw [skipAngles_cons, skipAngles_cons, ← halike.kind]
      cases hkind : token.kind with
      | lt => exact skipAngles_follows (depth + 1) (h.tail_of_kind hkind (by decide) (by decide))
      | gt =>
          have hrest := h.tail_of_kind hkind (by decide) (by decide)
          dsimp only
          split
          · exact .beside (.done rfl hrest)
          · exact skipAngles_follows (depth - 1) hrest
      | semicolon | rBrace => exact .beside (.failed rfl h)
      | lParen | lBrace | lBracket | attrOpen =>
          have hrest := h.tail_of_kind hkind (by decide) (by decide)
          exact (skipGroup_follows halike h.leads hrest).follow
            (skipGroup_suffix ending token rest).length_le
            (fun _ inner => skipAngles_suffix ending opening depth inner)
            (fun _ _ hends _ => .of_breaks hends (skipAngles_breaks hends depth))
            fun _ _ inner _ hle _ hinner => skipAngles_follows depth hinner
      | _ => exact skipAngles_follows depth (h.tail_of_kind hkind (by decide) (by decide))
termination_by tokens.length

theorem skipInitializer_tracks {tokens others : List Token} (h : border.Beside tokens others) :
    (skipInitializer ending tokens).Tracks border id (skipInitializer finish others) := by
  match tokens with
  | [] =>
      rw [h.eq_nil, skipInitializer, skipInitializer]
      exact .inr (.done rfl (h.eq_nil ▸ h))
  | token :: rest =>
      obtain ⟨other, after, rfl, halike, _⟩ := h.next
      rw [skipInitializer_cons, skipInitializer_cons, ← halike.kind]
      cases hkind : token.kind with
      | comma | semicolon | rBrace => exact .inr (.done rfl h)
      | lParen | lBrace | lBracket | attrOpen =>
          have hrest := h.tail_of_kind hkind (by decide) (by decide)
          exact (skipGroup_follows halike h.leads hrest).tracks.bind
            (skipGroup_suffix ending token rest).length_le
            (fun _ inner => skipInitializer_suffix ending inner)
            fun _ _ inner _ hle _ hinner => skipInitializer_tracks hinner
      | _ => exact skipInitializer_tracks (h.tail_of_kind hkind (by decide) (by decide))
termination_by tokens.length

section Declarations

theorem Border.skipOne_tail {kind : TokenKind} (hends : border.ends kind) :
    skipOne .semicolon border.tail = border.tail := by
  unfold skipOne
  rw [border.tail_kind kind hends, if_neg (by decide)]

theorem Border.skipOne_other (hends : border.ends .rBrace) :
    skipOne .semicolon border.other = border.other := by
  unfold skipOne
  rw [if_neg (border.other_kind hends)]

-- The `;` that may stand behind a body.
theorem skipOne_ends (h : border.Beside tokens others) :
    (Read.done () (skipOne .semicolon tokens)).Ends border id
      (.done () (skipOne .semicolon others)) := by
  unfold skipOne
  rw [← h.kindAt_eq]
  split
  · next hkind =>
    cases h with
    | nil _ _ => cases hkind
    | cons _ _ _ hrest => exact .beside (.done rfl hrest)
    | last _ hends => exact .finished hends trivial rfl
  · exact .beside (.done rfl h)

-- A group with the `;` behind it.
theorem skipBody_ends (halike : Alike opening first)
    (hleads : opening.kind = .attrOpen → border.Leads tokens others)
    (h : border.Beside tokens others) :
    ((skipGroup ending opening tokens).bind fun _ after => .done () (skipOne .semicolon after)).Ends
      border id
      ((skipGroup finish first others).bind fun _ after => .done () (skipOne .semicolon after)) := by
  refine (skipGroup_follows halike hleads h).follow
    (skipGroup_suffix ending opening tokens).length_le
    (fun _ inner => skipOne_suffix .semicolon inner) (fun _ _ hends _ => ?_)
    fun _ _ inner _ hle _ hinner => skipOne_ends hinner
  rw [Border.skipOne_tail hends, Border.skipOne_other hends]
  exact .finished hends trivial rfl

theorem skipDeclaration_breaks {kind : TokenKind} (hends : border.ends kind) (passed : Passed) :
    border.Breaks (skipDeclaration ending passed border.tail) := by
  obtain ⟨token, rest, htail, hkind⟩ := border.tail_eq_cons hends
  rw [htail]
  refine .inr ⟨unexpected ending .semicolon (token :: rest), token :: rest, ?_, htail ▸ Nat.le_refl _⟩
  rw [skipDeclaration_cons, hkind]

theorem unexpected_unplaced (kind : TokenKind) (h : border.Beside tokens others) :
    (unexpected ending kind tokens).unplaced = (unexpected finish kind others).unplaced := by
  cases h with
  | nil _ _ => rfl
  | cons halike _ _ _ =>
      rw [unexpected, unexpected, halike.kind]
      rfl
  | last halike _ =>
      rw [unexpected, unexpected, halike.kind]
      rfl

theorem skipDeclaration_ends {tokens others : List Token} (passed : Passed)
    (h : border.Beside tokens others) :
    (skipDeclaration ending passed tokens).Ends border id
      (skipDeclaration finish passed others) := by
  match tokens with
  | [] =>
      rw [h.eq_nil, skipDeclaration, skipDeclaration]
      exact .beside (.failed rfl (h.eq_nil ▸ h))
  | token :: rest =>
      obtain ⟨other, after, rfl, halike, hrest⟩ := h.next
      rw [skipDeclaration_cons, skipDeclaration_cons, ← halike.kind]
      cases hkind : token.kind with
      | semicolon =>
          rcases hrest with hrest | ⟨hends, rfl, rfl⟩
          · exact .beside (.done rfl hrest)
          · exact .finished hends trivial rfl
      | rBrace => exact .beside (.failed (unexpected_unplaced .semicolon h) h)
      | eq => exact skipDeclaration_ends _ (h.tail_of_kind hkind (by decide) (by decide))
      | lBrace =>
          have hrest := h.tail_of_kind hkind (by decide) (by decide)
          refine (skipGroup_follows halike h.leads hrest).follow
            (skipGroup_suffix ending token rest).length_le
            (fun _ inner => ?_) (fun _ _ hends _ => ?_) fun _ _ inner _ hle _ hinner => ?_
          · split
            · exact skipOne_suffix .semicolon inner
            · exact skipDeclaration_suffix ending passed inner
          · split
            · rw [Border.skipOne_tail hends, Border.skipOne_other hends]
              exact .finished hends trivial rfl
            · exact .of_breaks hends (skipDeclaration_breaks hends passed)
          · split
            · exact skipOne_ends hinner
            · exact skipDeclaration_ends passed hinner
      | lParen | lBracket | attrOpen =>
          have hrest := h.tail_of_kind hkind (by decide) (by decide)
          exact (skipGroup_follows halike h.leads hrest).follow
            (skipGroup_suffix ending token rest).length_le
            (fun _ inner => skipDeclaration_suffix ending _ inner)
            (fun _ _ hends _ => .of_breaks hends (skipDeclaration_breaks hends _))
            fun _ _ inner _ hle _ hinner => skipDeclaration_ends _ hinner
      | _ => exact skipDeclaration_ends passed (h.tail_of_kind hkind (by decide) (by decide))
termination_by tokens.length

end Declarations

section Recovery

-- Where both sides go on.
inductive Border.Meets (border : Border) : List Token → List Token → Prop where
  | beside {rest others : List Token} (h : border.Beside rest others) :
      Border.Meets border rest others
  | finished {kind : TokenKind} (hends : border.ends kind) :
      Border.Meets border border.tail border.other

theorem recover_length_lt {depth : Nat} (hdepth : depth ≠ 0) (hne : tokens ≠ []) :
    (recover depth tokens).length < tokens.length := by
  cases tokens with
  | nil => exact absurd rfl hne
  | cons token rest =>
      have hrest := fun depth => (recover_suffix depth rest).length_le
      have hone := (skipOne_suffix .semicolon rest).length_le
      apply Nat.lt_succ_of_le
      rw [recover]
      split
      · rw [if_neg hdepth]
        exact hrest _
      · rw [if_neg hdepth]
        split
        · exact hone
        · exact hrest _
      · exact hrest _
      · split
        · exact hrest _
        · split <;> exact hrest _

theorem skipOne_meets (h : border.Beside tokens others) :
    border.Meets (skipOne .semicolon tokens) (skipOne .semicolon others) := by
  unfold skipOne
  rw [← h.kindAt_eq]
  split
  · next hkind =>
    cases h with
    | nil _ _ => cases hkind
    | cons _ _ _ hrest => exact .beside hrest
    | last _ hends => exact .finished hends
  · exact .beside h

theorem recover_meets {tokens others : List Token} (depth : Nat) (h : border.Beside tokens others) :
    border.Lost (recover depth tokens) ∨
      border.Meets (recover depth tokens) (recover depth others) := by
  match tokens with
  | [] =>
      cases h with
      | nil htail hother =>
          rw [recover]
          exact .inr (.beside (.nil htail hother))
  | token :: rest =>
      obtain ⟨other, after, rfl, halike, hrest⟩ := h.next
      rw [recover, recover, ← halike.kind]
      cases hkind : token.kind with
      | semicolon =>
          dsimp only
          rcases hrest with hrest | ⟨hends, rfl, rfl⟩
          · split
            · exact .inr (.beside hrest)
            · exact recover_meets depth hrest
          · split
            · exact .inr (.finished hends)
            · next hdepth => exact .inl (.inl (recover_length_lt hdepth (border.tail_ne_nil hends)))
      | rBrace =>
          dsimp only
          rcases hrest with hrest | ⟨hends, rfl, rfl⟩
          · split
            · exact .inr (.beside h)
            · split
              · exact .inr (skipOne_meets hrest)
              · exact recover_meets (depth - 1) hrest
          · rw [hkind] at hends
            split
            · exact .inr (.beside h)
            · split
              · exact .inl (Border.lost_of_ends hends (skipOne_suffix .semicolon _))
              · exact .inl (Border.lost_of_ends hends (recover_suffix _ _))
      | _ => exact recover_meets _ (h.tail_of_kind hkind (by decide) (by decide))
termination_by tokens.length

-- Tokens that no rule accepts are dropped on both sides.
theorem Border.Meets.resume {next following : List Token} (hbeside : border.Beside tokens others)
    (hne : tokens ≠ []) (h : border.Meets next following) :
    border.Meets (resume tokens next) (resume others following) := by
  have hlength := hbeside.length_add
  unfold Header.resume
  cases h with
  | beside hnext =>
      have hmore := hnext.length_add
      by_cases hlt : next.length < tokens.length
      · rw [if_pos hlt, if_pos (by omega)]
        exact .beside hnext
      · rw [if_neg hlt, if_neg (by omega)]
        cases hbeside with
        | nil _ _ => exact absurd rfl hne
        | cons _ _ _ hrest => exact .beside hrest
        | last _ hends => exact .finished hends
  | finished hends =>
      have hlt := hbeside.length_lt hends
      rw [if_pos hlt, if_pos (by omega)]
      exact .finished hends

end Recovery

end Reflection.Header
