import Reflection.Proofs.Header.Alongside.Classes

namespace Reflection.Header

variable {border : Border} {ending finish : Token} {tokens others : List Token}

section Namespaces

-- The end of a namespace opening behind its name.
def namespaceNamed (ending : Token) (name : List String) (tokens : List Token) :
    Read NamespaceOpening :=
  if kindAt tokens = .eq then (skipDeclaration ending .nothing tokens).map fun _ => ⟨name, false⟩
  else (expect ending .lBrace tokens).map fun _ => ⟨name, true⟩

theorem namespaceOpening_eq_bind :
    namespaceOpening ending tokens = (specifiers ending tokens).bind fun _ rest =>
      namespaceNamed ending (qualifiedName rest).1 (qualifiedName rest).2 := rfl

theorem namespaceNamed_suffix (name : List String) :
    (namespaceNamed ending name tokens).rest <:+ tokens := by
  unfold namespaceNamed
  split
  · simpa using skipDeclaration_suffix ending .nothing tokens
  · simpa using expect_suffix ending .lBrace tokens

theorem namespaceNamed_breaks {kind : TokenKind} (hends : border.ends kind) (name : List String) :
    border.Breaks (namespaceNamed ending name border.tail) := by
  obtain ⟨token, rest, htail, hkind⟩ := border.tail_eq_cons hends
  refine .inr ⟨unexpected ending .lBrace (token :: rest), token :: rest, ?_,
    htail ▸ Nat.le_refl _⟩
  rw [htail, namespaceNamed, expect, kindAt_cons, hkind, if_neg (by decide), if_neg (by decide)]
  rfl

theorem namespaceNamed_ends (name : List String) (h : border.Beside tokens others) :
    (namespaceNamed ending name tokens).Ends border id (namespaceNamed finish name others) := by
  unfold namespaceNamed
  rw [← h.kindAt_eq]
  split
  · exact (skipDeclaration_ends .nothing h).map _ _ fun _ _ _ => rfl
  · have hbrace : (expect ending .lBrace tokens).Ends border id (expect finish .lBrace others) :=
      .beside (expect_beside h (by decide) (by decide))
    exact hbrace.map _ _ fun _ _ _ => rfl

theorem namespaceOpening_ends (h : border.Beside tokens others) :
    (namespaceOpening ending tokens).Ends border id (namespaceOpening finish others) := by
  rw [namespaceOpening_eq_bind, namespaceOpening_eq_bind]
  refine (specifiers_tracks h).follow h (specifiers_suffix ending tokens)
    (fun _ rest => (namespaceNamed_suffix _).trans (qualifiedName_suffix rest)) (fun _ hends => ?_)
    fun _ _ rest after _ _ hrest => ?_
  · rw [Border.qualifiedName_tail hends]
    exact namespaceNamed_breaks hends []
  · obtain ⟨hname, hnamed⟩ := qualifiedName_beside hrest
    rw [← hname]
    exact namespaceNamed_ends _ hnamed

-- A namespace with contents goes on behind the brace that opens it.
theorem namespaceOpening_behind {opening : NamespaceOpening} {rest : List Token}
    (h : namespaceOpening ending tokens = .done opening rest) (hbody : opening.hasBody = true) :
    ∃ brace, brace.kind = .lBrace ∧ brace :: rest <:+ tokens := by
  rw [namespaceOpening_eq_bind] at h
  obtain ⟨_, after, hspecifiers, h⟩ := Read.bind_eq_done h
  have hafter := Read.suffix_of_done (specifiers_suffix ending tokens) hspecifiers
  unfold namespaceNamed at h
  split at h
  · obtain ⟨_, _, rfl⟩ := Read.map_eq_done h
    cases hbody
  · obtain ⟨_, hexpect, _⟩ := Read.map_eq_done h
    obtain ⟨brace, hkind, htokens⟩ := expect_behind (by decide) hexpect
    have hname := qualifiedName_suffix after
    rw [htokens] at hname
    exact ⟨brace, hkind, hname.trans hafter⟩

end Namespaces

section Contents

-- The contents of a scope on both sides.
abbrev ScopesAlong (border : Border) (ending finish : Token) (nested : Bool)
    (tokens others : List Token) : Prop :=
  Recorded.Along border Entity.unplaced (fun _ : Unit => scope .tolerant ending nested border.tail)
    (fun _ => scope .tolerant finish nested border.other) (scope .tolerant ending nested tokens)
    (scope .tolerant finish nested others)

variable {α γ : Type} {result : α → γ}

theorem closeScope_ends {value further : List Token → α}
    (hvalue : ∀ rest others, result (value rest) = result (further others))
    (h : border.Beside tokens others) :
    (closeScope ending value tokens).Ends border result (closeScope finish further others) := by
  unfold closeScope
  exact (expect_rBrace_follows h).follow (expect_suffix ending .rBrace tokens).length_le
    (fun _ rest => List.suffix_refl rest) (fun _ _ hends _ => .finished hends trivial (hvalue _ _))
    fun _ _ _ _ _ _ hrest => .beside (.done (hvalue _ _) hrest)

-- A scope that comes to the border takes the brace behind it.
theorem closeScope_tail {kind : TokenKind} (hends : border.ends kind) (value : List Token → α) :
    (closeScope ending value border.tail).rest.length < border.tail.length := by
  obtain ⟨brace, rest, htail, hkind⟩ := border.tail_eq_cons hends
  rw [htail, closeScope, expect, kindAt_cons, if_pos hkind]
  exact Nat.lt_succ_self _

theorem scope_tail {kind : TokenKind} (hends : border.ends kind) :
    (scope .tolerant ending true border.tail).outcome = .ok [] ∧
      (scope .tolerant ending true border.tail).recovered = [] ∧
      (scope .tolerant ending true border.tail).rest = border.tail := by
  obtain ⟨brace, rest, htail, hkind⟩ := border.tail_eq_cons hends
  rw [htail, scope_rBrace .tolerant ending true hkind rest]
  exact ⟨rfl, rfl, rfl⟩

theorem close_ends {value further : List Entity → List Token → α}
    (hvalue : ∀ entities more rest others,
      entities.map Entity.unplaced = more.map Entity.unplaced →
      result (value entities rest) = result (further more others))
    (h : ScopesAlong border ending finish true tokens others) :
    ((scope .tolerant ending true tokens).close ending value).Ends border result
      ((scope .tolerant finish true others).close finish further) := by
  unfold Recorded.close
  cases h with
  | beyond h => exact .beyond (Nat.lt_of_le_of_lt Recorded.rest_andThen_le h)
  | stuck hends herrors => exact .stuck hends (Recorded.errors_andThen herrors)
  | closed hends hrest => exact .of_breaks hends hrest fun _ => .inl (closeScope_tail hends _)
  | beside h =>
      exact h.andThen fun entities more hentities =>
        closeScope_ends (fun _ _ => hvalue entities more _ _ hentities) h.rest
  | reached _ hends _ _ hread _ =>
      obtain ⟨houtcome, _, hrest⟩ := @scope_tail border ending _ hends
      have hok := hread.outcome
      rw [houtcome] at hok
      rw [Recorded.andThen_ok hok]
      refine .beyond ?_
      dsimp only [Recorded.behind, Recorded.ofRead]
      rw [hread.rest, hrest]
      exact closeScope_tail hends _

theorem Border.Beside.scopeForm (h : border.Beside tokens others) :
    scopeForm tokens = scopeForm others := by
  have hstarts := h.starts
  unfold Header.scopeForm
  rw [← h.kindAt_eq]
  cases hkind : kindAt tokens with
  | inlineKw =>
      have htail := h.tail (by rw [hkind]; decide) (by rw [hkind]; decide)
      dsimp only
      rw [htail.kindAt_eq]
  | externKw =>
      have htail := h.tail (by rw [hkind]; decide) (by rw [hkind]; decide)
      dsimp only
      rw [← htail.kindAt_eq]
      by_cases hstring : kindAt tokens.tail = .string
      · rw [(htail.tail (by rw [hstring]; decide) (by rw [hstring]; decide)).kindAt_eq]
      · rw [if_neg fun h => hstring h.1, if_neg fun h => hstring h.1]
  | classKw | structKw | unionKw | enumKw =>
      rw [hkind] at hstarts
      dsimp only
      rw [hstarts rfl]
  | _ => rfl

theorem Border.Beside.tail_of_scopeForm {token other : Token} {rest after : List Token}
    (h : border.Beside (token :: rest) (other :: after))
    (hempty : Header.scopeForm (token :: rest) ≠ .empty)
    (hclosing : Header.scopeForm (token :: rest) ≠ .closing) : border.Beside rest after := by
  refine h.tail (fun hkind => hempty ?_) fun hkind => hclosing ?_
  · rw [Header.scopeForm, hkind]
  · rw [Header.scopeForm, hkind]

theorem namespaceFrom_ends {keyword other : Token} {opening second : NamespaceOpening}
    (isInline : Bool) (hopening : opening = second)
    (hscope : opening.hasBody = true → ScopesAlong border ending finish true tokens others)
    (hbeside : opening.hasBody = false → border.Beside tokens others ∨
      ∃ kind, border.ends kind ∧ tokens = border.tail ∧ others = border.other) :
    (namespaceFrom .tolerant ending isInline keyword opening tokens).Ends border
      (List.map Entity.unplaced)
      (namespaceFrom .tolerant finish isInline other second others) := by
  subst hopening
  unfold namespaceFrom
  by_cases hbody : opening.hasBody = true
  · rw [if_pos hbody, if_pos hbody]
    refine close_ends (fun entities more rest after hentities => ?_) (hscope hbody)
    simp only [List.map_cons, Entity.unplaced, NamespaceHead.unplaced, unplacedEntities_eq_map,
      hentities, List.map_nil]
  · have halias := Bool.eq_false_iff.mpr hbody
    rw [if_neg hbody, if_neg hbody]
    rcases hbeside halias with h | ⟨kind, hends, rfl, rfl⟩
    · exact .beside ⟨rfl, rfl, h⟩
    · exact .finished hends rfl rfl rfl rfl rfl rfl

theorem namespaceDeclaration_ends {keyword other : Token} (isInline : Bool)
    (hscope : ∀ inner after, inner.length ≤ tokens.length → border.Beside inner after →
      ScopesAlong border ending finish true inner after) (h : border.Beside tokens others) :
    (namespaceDeclaration .tolerant ending isInline keyword tokens).Ends border
      (List.map Entity.unplaced)
      (namespaceDeclaration .tolerant finish isInline other others) := by
  rw [namespaceDeclaration_eq_after, namespaceDeclaration_eq_after]
  refine .after _ _ (fun kind first second hends _ hread hopening => ?_)
    (fun first second rest after hle hopening hrest => ?_) (namespaceOpening_ends h)
  · refine namespaceFrom_ends isInline hopening (fun hbody => ?_)
      fun _ => .inr ⟨kind, hends, rfl, rfl⟩
    obtain ⟨brace, hbrace, hsuffix⟩ := namespaceOpening_behind hread hbody
    rcases border.ends_kind _ (h.ends_behind hends hsuffix) with hkind | hkind <;>
      exact absurd (hbrace.symm.trans hkind) (by decide)
  · exact namespaceFrom_ends isInline hopening (fun _ => hscope rest after hle hrest)
      fun _ => .inl hrest

theorem scopeDeclaration_ends {annotations blocks : List AnnotationBlock}
    (hannotations : annotations.map AnnotationBlock.unplaced =
      blocks.map AnnotationBlock.unplaced)
    (hscope : ∀ inner after, inner.length < tokens.length → border.Beside inner after →
      ScopesAlong border ending finish true inner after) (h : border.Beside tokens others) :
    (scopeDeclaration .tolerant ending annotations tokens).Ends border (List.map Entity.unplaced)
      (scopeDeclaration .tolerant finish blocks others) := by
  cases tokens with
  | nil =>
      obtain rfl := h.eq_nil
      rw [scopeDeclaration, scopeDeclaration]
      exact .beside ⟨rfl, rfl, h⟩
  | cons token rest =>
      obtain ⟨other, after, rfl, halike, hrest⟩ := h.next
      have htail := h.tail_of_scopeForm
      rw [scopeDeclaration_cons, scopeDeclaration_cons, ← h.scopeForm]
      cases hform : Header.scopeForm (token :: rest) with
      | closing => exact .beside ⟨rfl, rfl, h⟩
      | empty =>
          rcases hrest with hrest | ⟨hends, rfl, rfl⟩
          · exact .beside ⟨rfl, rfl, hrest⟩
          · exact .finished hends rfl rfl rfl rfl rfl rfl
      | skipped =>
          exact (Recorded.ends_ofRead _ _ (skipDeclaration_ends .nothing h)).map _ _
            fun _ _ _ => rfl
      | namespaceDecl =>
          rw [hform] at htail
          exact (namespaceDeclaration_ends false
            (fun inner after hle => hscope inner after (Nat.lt_succ_of_le hle))
            (htail (by decide) (by decide))).within _ _
      | inlineNamespace =>
          rw [hform] at htail
          have hkeyword : kindAt rest = .namespaceKw := kindAt_of_inlineNamespace hform
          have hinner := (htail (by decide) (by decide)).tail (by rw [hkeyword]; decide)
            (by rw [hkeyword]; decide)
          refine (namespaceDeclaration_ends true (fun inner after hle => ?_) hinner).within _ _
          exact hscope inner after (Nat.lt_succ_of_le (Nat.le_trans hle (by simp)))
      | linkage =>
          rw [hform] at htail
          obtain ⟨hstring, hbrace⟩ : kindAt rest = .string ∧ kindAt rest.tail = .lBrace :=
            kindAt_of_linkage hform
          have hinner := ((htail (by decide) (by decide)).tail (by rw [hstring]; decide)
            (by rw [hstring]; decide)).tail (by rw [hbrace]; decide) (by rw [hbrace]; decide)
          refine (close_ends (fun _ _ _ _ hentities => hentities)
            (hscope _ _ (Nat.lt_succ_of_le ?_) hinner)).within _ _
          simp only [List.length_tail]
          omega
      | classType =>
          rw [hform] at htail
          refine Recorded.Ends.within _ _ (Recorded.Ends.map _ _ ?_
            (classDeclaration_ends annotations blocks false token other rest after hannotations
              halike.kind (htail (by decide) (by decide))))
          intro first second hvalue
          exact congrArg (fun entity => [entity]) (Prod.mk.inj hvalue).1
      | enumType =>
          rw [hform] at htail
          refine Recorded.Ends.within _ _ (Recorded.Ends.map _ _ ?_ (Recorded.ends_ofRead _ _
            (enumDeclaration_ends hannotations (htail (by decide) (by decide)))))
          intro first second hvalue
          exact congrArg (fun decl => [Entity.enumDecl decl]) (Prod.mk.inj hvalue).1
      | template =>
          rw [hform] at htail
          refine Recorded.Ends.within _ _ (Recorded.Ends.map _ _ ?_
            (templateDeclaration_ends hannotations (classesEnd rest.length)
              (htail (by decide) (by decide))))
          intro first second hvalue
          rw [← Option.toList_map, ← Option.toList_map, hvalue]

theorem scopeItem_ends
    (hscope : ∀ inner after, inner.length < tokens.length → border.Beside inner after →
      ScopesAlong border ending finish true inner after) (h : border.Beside tokens others) :
    (scopeItem .tolerant ending tokens).Ends border (List.map Entity.unplaced)
      (scopeItem .tolerant finish others) := by
  have hannotations : (leadingAnnotations ending tokens).Follows border (fun _ => False)
      (List.map AnnotationBlock.unplaced) (leadingAnnotations finish others) :=
    leadingAnnotations_follows h
  rw [scopeItem_eq_after, scopeItem_eq_after]
  exact .after _ _ (fun _ _ _ _ hkind => hkind.elim)
    (fun _ _ rest after hle hblocks hrest => scopeDeclaration_ends hblocks
      (fun inner after hlt => hscope inner after (Nat.lt_of_lt_of_le hlt hle)) hrest) hannotations

-- By recursion on the tokens: what a declaration leaves is shorter, and so are its contents.
theorem scope_along (nested : Bool) (tokens others : List Token) (h : border.Beside tokens others) :
    ScopesAlong border ending finish nested tokens others := by
  match tokens with
  | [] =>
      obtain rfl := h.eq_nil
      unfold ScopesAlong
      rw [scope_nil, scope_nil]
      cases nested with
      | false => exact .beside ⟨rfl, rfl, h⟩
      | true => exact .beside ⟨rfl, rfl, h⟩
  | token :: rest =>
      obtain ⟨other, after, rfl, halike, hrest⟩ := h.next
      by_cases hbrace : token.kind = .rBrace
      · have hother : other.kind = .rBrace := halike.kind ▸ hbrace
        cases nested with
        | true =>
            unfold ScopesAlong
            rw [scope_rBrace _ _ _ hbrace, scope_rBrace _ _ _ hother]
            exact .beside ⟨rfl, rfl, h⟩
        | false =>
            refine .extend (scope_unmatched hbrace) (scope_unmatched hother) rfl rfl ?_
            rcases hrest with hrest | ⟨hends, rfl, rfl⟩
            · exact scope_along false rest after hrest
            · exact .here () hends
      · refine .of_stepped h (List.cons_ne_nil token rest)
          (scope_extends nested hbrace (.inl rfl))
          (scope_extends nested (halike.kind ▸ hbrace) (.inl rfl)) (fun _ hmeets => ?_)
          (scopeItem_ends (fun inner further hlt hinner => scope_along true inner further hinner)
            h).stepped
        have hlt := @resume_length token rest (scopeItem .tolerant ending (token :: rest)).next
        generalize resume (token :: rest) _ = left at hmeets hlt ⊢
        generalize resume (other :: after) _ = right at hmeets ⊢
        cases hmeets with
        | finished hends => exact .here () hends
        | beside hleft => exact scope_along nested left right hleft
termination_by tokens.length
decreasing_by all_goals simp only [List.length_cons] at *; omega

end Contents

end Reflection.Header
