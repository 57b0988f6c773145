import Reflection.Proofs.Header.Alongside.Skipping

namespace Reflection.Header

variable {border : Border} {ending finish : Token} {tokens others : List Token}

theorem Alike.isTrailingDoc {token other : Token} (h : Alike token other) :
    isTrailingDoc token = isTrailingDoc other := by
  rw [Header.isTrailingDoc, Header.isTrailingDoc, h.kind, h.text]

theorem Alike.isLeadingDoc {token other : Token} (h : Alike token other) :
    isLeadingDoc token = isLeadingDoc other := by
  rw [Header.isLeadingDoc, Header.isLeadingDoc, h.kind, h.isTrailingDoc]

theorem kind_of_isTrailingDoc {token : Token} (h : isTrailingDoc token = true) :
    token.kind = .docComment := by
  simp only [isTrailingDoc, Bool.and_eq_true, decide_eq_true_eq] at h
  exact h.1

theorem kind_of_isLeadingDoc {token : Token} (h : isLeadingDoc token = true) :
    token.kind = .docComment := by
  simp only [isLeadingDoc, Bool.and_eq_true, decide_eq_true_eq] at h
  exact h.1

-- The comments that come next are the same on both sides, and so is what follows them.
theorem Border.Beside.docs (h : border.Beside tokens others) :
    (tokens.takeWhile isLeadingDoc).map Token.text = (others.takeWhile isLeadingDoc).map Token.text ∧
      border.Beside (tokens.dropWhile isLeadingDoc) (others.dropWhile isLeadingDoc) := by
  induction h with
  | nil htail hother => exact ⟨rfl, .nil htail hother⟩
  | @cons token other rest after halike hstarts hleads hrest ih =>
      rw [List.takeWhile_cons, List.takeWhile_cons, List.dropWhile_cons, List.dropWhile_cons,
        ← halike.isLeadingDoc]
      split
      · rw [List.map_cons, List.map_cons, halike.text, ih.1]
        exact ⟨rfl, ih.2⟩
      · exact ⟨rfl, .cons halike hstarts hleads hrest⟩
  | @last token other halike hends =>
      have hdoc : Header.isLeadingDoc token = false := by
        rcases border.ends_kind _ hends with hkind | hkind <;> simp [Header.isLeadingDoc, hkind]
      rw [List.takeWhile_cons_of_neg (by simp [hdoc]), List.dropWhile_cons_of_neg (by simp [hdoc]),
        List.takeWhile_cons_of_neg (by simp [← halike.isLeadingDoc, hdoc]),
        List.dropWhile_cons_of_neg (by simp [← halike.isLeadingDoc, hdoc])]
      exact ⟨rfl, .last halike hends⟩

theorem docBlock_unplaced {first second : Token} {more further : List Token}
    (halike : Alike first second) (hmore : more.map Token.text = further.map Token.text) :
    (docBlock first more).unplaced = (docBlock second further).unplaced := by
  have hlines : ∀ tokens : List Token,
      (tokens.map fun token => String.ofList (stripMark "///".toList token.text)) =
        (tokens.map Token.text).map fun text => String.ofList (stripMark "///".toList text) := by
    intro tokens
    rw [List.map_map]
    rfl
  simp only [docBlock, AnnotationBlock.unplaced, hlines, List.map_cons, halike.text, hmore]

-- Annotations stay in front of what they belong to, so they do not come to the border.
theorem leadingAnnotations_follows {kinds : TokenKind → Prop} {tokens others : List Token}
    (h : border.Beside tokens others) :
    (leadingAnnotations ending tokens).Follows border kinds (List.map AnnotationBlock.unplaced)
      (leadingAnnotations finish others) := by
  match tokens with
  | [] =>
      rw [h.eq_nil, leadingAnnotations, leadingAnnotations]
      exact .beside (.done rfl (h.eq_nil ▸ h))
  | token :: rest =>
      obtain ⟨other, after, rfl, halike, _⟩ := h.next
      rw [leadingAnnotations_cons, leadingAnnotations_cons, ← halike.isTrailingDoc,
        ← halike.isLeadingDoc, ← halike.kind]
      split
      · next hdoc =>
        exact leadingAnnotations_follows
          (h.tail_of_kind (kind_of_isTrailingDoc hdoc) (by decide) (by decide))
      · split
        · next hdoc =>
          obtain ⟨htexts, hrest⟩ :=
            (h.tail_of_kind (kind_of_isLeadingDoc hdoc) (by decide) (by decide)).docs
          have hle := (rest.dropWhile_suffix isLeadingDoc).length_le
          refine (leadingAnnotations_follows hrest).map _ _ fun first second hvalue => ?_
          rw [List.map_cons, List.map_cons, hvalue]
          exact congrArg (· :: _) (docBlock_unplaced halike htexts)
        · split
          · next hkind =>
            have hrest := h.tail_of_kind hkind (by decide) (by decide)
            refine (attributeBlock_follows [] (h.leads hkind) hrest).bind
              (attributeBlock_suffix ending token [] rest).length_le
              (fun _ inner => ?_) fun first second inner _ hle hvalue hinner => ?_
            · rw [Read.rest_map]
              exact leadingAnnotations_suffix ending inner
            · refine (leadingAnnotations_follows hinner).map _ _ fun blocks more hblocks => ?_
              rw [List.map_cons, List.map_cons, hvalue, hblocks]
          · exact .beside (.done rfl h)
termination_by tokens.length

theorem specifiers_tracks {tokens others : List Token} (h : border.Beside tokens others) :
    (specifiers ending tokens).Tracks border (List.map AnnotationBlock.unplaced)
      (specifiers finish others) := by
  match tokens with
  | [] =>
      rw [h.eq_nil, specifiers, specifiers]
      exact .inr (.done rfl (h.eq_nil ▸ h))
  | token :: rest =>
      obtain ⟨other, after, rfl, halike, _⟩ := h.next
      rw [specifiers_cons, specifiers_cons, ← halike.kind]
      cases hkind : token.kind with
      | attrOpen =>
          have hrest := h.tail_of_kind hkind (by decide) (by decide)
          refine (attributeBlock_tracks [] (h.leads hkind) hrest).bind
            (attributeBlock_suffix ending token [] rest).length_le
            (fun _ inner => ?_) fun first second inner _ hle hvalue hinner => ?_
          · rw [Read.rest_map]
            exact specifiers_suffix ending inner
          · refine (specifiers_tracks hinner).map _ _ fun blocks more hblocks => ?_
            rw [List.map_cons, List.map_cons, hvalue, hblocks]
      | alignasKw =>
          have hrest := h.tail_of_kind hkind (by decide) (by decide)
          exact (skipParens_tracks hrest).bind (skipParens_suffix ending rest).length_le
            (fun _ inner => specifiers_suffix ending inner)
            fun _ _ inner _ hle _ hinner => specifiers_tracks hinner
      | _ => exact .inr (.done rfl h)
termination_by tokens.length

-- A comment behind a declaration that ends inside the border.
theorem trailingDoc_beside (h : border.Beside tokens others) :
    (trailingDoc tokens).1.map AnnotationBlock.unplaced =
        (trailingDoc others).1.map AnnotationBlock.unplaced ∧
      border.Beside (trailingDoc tokens).2 (trailingDoc others).2 := by
  cases tokens with
  | nil =>
      cases h with
      | nil htail hother => exact ⟨rfl, .nil htail hother⟩
  | cons token rest =>
      obtain ⟨other, after, rfl, halike, _⟩ := h.next
      rw [trailingDoc, trailingDoc, ← halike.isTrailingDoc]
      split
      · next hdoc =>
        have hrest := h.tail_of_kind (kind_of_isTrailingDoc hdoc) (by decide) (by decide)
        refine ⟨?_, hrest⟩
        simp only [Option.map_some, AnnotationBlock.unplaced, halike.text]
      · exact ⟨rfl, h⟩

end Reflection.Header
