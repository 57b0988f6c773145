import Reflection.Proofs.Header.Readers
import Reflection.Proofs.Header.Spans

namespace Reflection.Header

-- What a reader gives, if it gives anything, together with what is left behind it.
def Read.Gives {α : Type} (P : α → List Token → Prop) : Read α → Prop
  | .done value rest => P value rest
  | .failed _ _ => True

namespace Read.Gives

variable {α β : Type} {P R : α → List Token → Prop} {Q : β → List Token → Prop} {read : Read α}

theorem imp (h : read.Gives P) (himp : ∀ value rest, P value rest → R value rest) :
    read.Gives R := by
  cases read with
  | done value rest => exact himp value rest h
  | failed error rest => trivial

theorem map {f : α → β} (h : read.Gives P) (hmap : ∀ value rest, P value rest → Q (f value) rest) :
    (read.map f).Gives Q := by
  cases read with
  | done value rest => exact hmap value rest h
  | failed error rest => trivial

theorem bind {next : α → List Token → Read β} (h : read.Gives P)
    (hnext : ∀ value rest, P value rest → (next value rest).Gives Q) :
    (read.bind next).Gives Q := by
  cases read with
  | done value rest => exact hnext value rest h
  | failed error rest => trivial

theorem of_suffix {tokens : List Token} (h : read.rest <:+ tokens) :
    read.Gives fun _ rest => rest <:+ tokens := by
  cases read with
  | done value rest => exact h
  | failed error rest => trivial

theorem and_suffix {tokens : List Token} (hread : read.Gives P) (h : read.rest <:+ tokens) :
    read.Gives fun value rest => P value rest ∧ rest <:+ tokens := by
  cases read with
  | done value rest => exact ⟨hread, h⟩
  | failed error rest => trivial

end Read.Gives

-- Annotations that are read from `lead` on, in front of what starts with `tokens`.
structure Annotated (text : List Char) (ending : Token) (lead tokens : List Token)
    (annotations : List AnnotationBlock) : Prop where
  inText : InText text ending lead
  suffix : tokens <:+ lead
  annotations : Siblings text (between ending lead tokens)
    (annotations.map AnnotationBlock.span)

variable {text : List Char} {ending token : Token} {lead tokens rest : List Token}

namespace Annotated

variable {annotations blocks : List AnnotationBlock}

theorem here (h : Annotated text ending lead tokens annotations) : InText text ending tokens :=
  h.inText.suffix h.suffix

-- More annotations, inside the declaration.
theorem append {inner : List Token} (h : Annotated text ending lead tokens annotations)
    (hblocks : Siblings text (between ending inner rest) (blocks.map AnnotationBlock.span))
    (hinner : inner <:+ tokens) (hrest : rest <:+ inner) :
    Annotated text ending lead rest (annotations ++ blocks) := by
  refine ⟨h.inText, hrest.trans (hinner.trans h.suffix), ?_⟩
  rw [List.map_append]
  exact h.annotations.append hblocks h.inText h.suffix hinner hrest

theorem later (h : Annotated text ending lead tokens annotations) (hrest : rest <:+ tokens) :
    Annotated text ending lead rest annotations :=
  ⟨h.inText, hrest.trans h.suffix,
    h.annotations.widen h.inText (List.suffix_refl lead) h.suffix hrest⟩

end Annotated

section Annotations

theorem attributeBlock_span {opening : Token} {inner : List Token}
    (h : InText text ending (opening :: inner)) (body : List Char) (htokens : tokens <:+ inner) :
    (attributeBlock ending opening body tokens).Gives fun block rest =>
      block.span.Inside text (between ending (opening :: inner) rest) := by
  induction tokens generalizing body with
  | nil => trivial
  | cons token rest ih =>
      have hrest : rest <:+ inner := (List.suffix_cons token rest).trans htokens
      rw [attributeBlock]
      split
      · next hclose =>
        cases rest with
        | nil => exact absurd hclose.2 (by decide)
        | cons bracket rest =>
            have hafter : rest <:+ inner := (List.suffix_cons bracket rest).trans hrest
            exact (h.token_inside hafter).merge
              (h.taken (Read.suffix_cons hrest opening) (List.suffix_refl rest))
      · exact ih _ hrest

-- A block is in front of the ones that are read behind it.
theorem annotations_cons {block : AnnotationBlock} {blocks : List AnnotationBlock}
    {left : List Token} (hblock : block.span.Inside text (between ending tokens left))
    (hblocks : Siblings text (between ending left rest) (blocks.map AnnotationBlock.span))
    (h : InText text ending tokens) (hleft : left <:+ tokens) (hrest : rest <:+ left) :
    Siblings text (between ending tokens rest) ((block :: blocks).map AnnotationBlock.span) :=
  (Siblings.single hblock).append hblocks h hleft (List.suffix_refl left) hrest

theorem attributeBlock_annotations {read : List Token → Read (List AnnotationBlock)}
    (h : InText text ending (token :: tokens)) (hsuffix : ∀ rest, (read rest).rest <:+ rest)
    (hread : ∀ rest, rest <:+ tokens → (read rest).Gives fun blocks after =>
      Siblings text (between ending rest after) (blocks.map AnnotationBlock.span)) :
    ((attributeBlock ending token [] tokens).bind fun block rest =>
      (read rest).map (block :: ·)).Gives fun blocks rest =>
        Siblings text (between ending (token :: tokens) rest)
          (blocks.map AnnotationBlock.span) := by
  have hblock := attributeBlock_span h [] (List.suffix_refl tokens)
  refine (hblock.and_suffix (attributeBlock_suffix ending token [] tokens)).bind ?_
  rintro block rest ⟨hspan, hrest⟩
  refine ((hread rest hrest).and_suffix (hsuffix rest)).map ?_
  rintro blocks after ⟨hblocks, hafter⟩
  exact annotations_cons hspan hblocks h (hrest.trans (List.suffix_cons token tokens)) hafter

-- The span of a documentation comment covers all its lines, which are tokens of their own.
theorem docBlock_span {more : List Token} (h : InText text ending (token :: (more ++ rest))) :
    (docBlock token more).span.Inside text (between ending (token :: (more ++ rest)) rest) := by
  have hrest : rest <:+ more ++ rest := List.suffix_append more rest
  refine Span.Inside.foldl_merge (h.token_inside hrest) fun line hline => ?_
  obtain ⟨front, back, rfl⟩ := List.append_of_mem hline
  have hsplit : line :: (back ++ rest) <:+ (front ++ line :: back) ++ rest := by simp
  exact h.taken (Read.suffix_cons hsplit token) (List.suffix_append back rest)

theorem leadingAnnotations_spans (tokens : List Token) (h : InText text ending tokens) :
    (leadingAnnotations ending tokens).Gives fun blocks rest =>
      Siblings text (between ending tokens rest) (blocks.map AnnotationBlock.span) := by
  match tokens with
  | [] =>
      rw [leadingAnnotations]
      exact Siblings.nil _
  | token :: rest =>
      have hrest : rest <:+ token :: rest := List.suffix_cons token rest
      have hsuffix := leadingAnnotations_suffix ending
      rw [leadingAnnotations_cons]
      split
      · have hread := leadingAnnotations_spans rest h.tail
        refine (hread.and_suffix (hsuffix rest)).imp ?_
        rintro blocks after ⟨hblocks, hafter⟩
        exact hblocks.widen h hrest hafter (List.suffix_refl after)
      split
      · have hdocs := rest.dropWhile_suffix isLeadingDoc
        have := hdocs.length_le
        have hread := leadingAnnotations_spans _ (h.tail.suffix hdocs)
        refine (hread.and_suffix (hsuffix _)).map ?_
        rintro blocks after ⟨hblocks, hafter⟩
        refine annotations_cons ?_ hblocks h (hdocs.trans hrest) hafter
        have hsplit := List.takeWhile_append_dropWhile (p := isLeadingDoc) (l := rest)
        have hdoc := @docBlock_span text ending token (rest.dropWhile isLeadingDoc)
          (rest.takeWhile isLeadingDoc)
        rw [hsplit] at hdoc
        exact hdoc h
      split
      · refine attributeBlock_annotations h hsuffix fun after hafter => ?_
        have := hafter.length_le
        exact leadingAnnotations_spans after (h.tail.suffix hafter)
      · exact Siblings.nil _
termination_by tokens.length
decreasing_by all_goals simp only [List.length_cons]; omega

theorem leadingAnnotations_annotated (h : InText text ending tokens) :
    (leadingAnnotations ending tokens).Gives fun annotations rest =>
      Annotated text ending tokens rest annotations :=
  ((leadingAnnotations_spans tokens h).and_suffix (leadingAnnotations_suffix ending tokens)).imp
    fun _ _ hread => ⟨h, hread.2, hread.1⟩

theorem specifiers_spans (tokens : List Token) (h : InText text ending tokens) :
    (specifiers ending tokens).Gives fun blocks rest =>
      Siblings text (between ending tokens rest) (blocks.map AnnotationBlock.span) := by
  match tokens with
  | [] =>
      rw [specifiers]
      exact Siblings.nil _
  | token :: rest =>
      have hrest : rest <:+ token :: rest := List.suffix_cons token rest
      have hsuffix := specifiers_suffix ending
      rw [specifiers_cons]
      split
      · refine attributeBlock_annotations h hsuffix fun after hafter => ?_
        have := hafter.length_le
        exact specifiers_spans after (h.tail.suffix hafter)
      · refine (Read.Gives.of_suffix (skipParens_suffix ending rest)).bind fun _ after hafter => ?_
        have := hafter.length_le
        have hread := specifiers_spans after (h.tail.suffix hafter)
        refine (hread.and_suffix (hsuffix after)).imp ?_
        rintro blocks last ⟨hblocks, hlast⟩
        exact hblocks.widen h (hafter.trans hrest) hlast (List.suffix_refl last)
      · exact Siblings.nil _
termination_by tokens.length
decreasing_by all_goals simp only [List.length_cons]; omega

theorem trailingDoc_spans (h : InText text ending tokens) :
    Siblings text (between ending tokens (trailingDoc tokens).2)
      ((trailingDoc tokens).1.toList.map AnnotationBlock.span) := by
  cases tokens with
  | nil => exact Siblings.nil _
  | cons token rest =>
      simp only [trailingDoc]
      split
      · exact .single (h.token_inside (List.suffix_refl rest))
      · exact Siblings.nil _

end Annotations

section Members

-- What has been seen of a declaration that starts with `tokens`.
structure Seen.Within (text : List Char) (ending : Token) (tokens rest : List Token)
    (seen : Seen) : Prop where
  name : ∀ name ∈ seen.name, name.span.Inside text (between ending tokens rest)
  attributes : Siblings text (between ending tokens rest)
    (seen.attributes.map AnnotationBlock.span)

-- A declaration that starts with `tokens`, behind its annotations.
structure MemberContext.Starts (text : List Char) (ending : Token) (lead tokens : List Token)
    (context : MemberContext) : Prop extends
    Annotated text ending lead tokens context.annotations where
  start : context.start = spanAt ending tokens

-- The members of one declaration all start where it does.
def MembersRead.Spans (text : List Char) (ending : Token) (lead tokens : List Token)
    (read : MembersRead) : Prop :=
  ∀ member ∈ read.members, member.Within text (between ending lead read.rest) ∧
    member.span.start = (spanAt ending tokens).start

-- No name is seen yet, or none since the last comma.
theorem none_inside (outer : Span) :
    ∀ name ∈ (none : Option Token), name.span.Inside text outer := by simp

theorem Seen.Within.nothing (tokens rest : List Token) :
    Seen.nothing.Within text ending tokens rest := ⟨none_inside _, Siblings.nil _⟩

theorem MembersRead.Spans.of_nil {read : MembersRead} (h : read.members = []) :
    read.Spans text ending lead tokens := by
  intro member hmem
  rw [h] at hmem
  cases hmem

-- The first token is taken together with any other one.
theorem exists_first (h : token :: rest <:+ tokens) :
    ∃ first more, tokens = first :: more ∧ rest <:+ more := by
  cases tokens with
  | nil => cases List.suffix_nil.mp h
  | cons first more =>
      rcases List.suffix_cons_iff.mp h with heq | hmore
      · cases heq
        exact ⟨_, _, rfl, List.suffix_refl _⟩
      · exact ⟨first, more, rfl, (List.suffix_cons token rest).trans hmore⟩

variable {context : MemberContext} {seen : Seen} {inner left : List Token}

namespace Seen.Within

theorem later (hseen : seen.Within text ending tokens left) (h : InText text ending tokens)
    (hleft : left <:+ tokens) (hrest : rest <:+ left) : seen.Within text ending tokens rest := by
  have htokens := List.suffix_refl tokens
  exact ⟨fun name hname => (hseen.name name hname).widen h htokens hleft hrest,
    hseen.attributes.widen h htokens hleft hrest⟩

theorem block {block : AnnotationBlock} (hseen : seen.Within text ending tokens left)
    (hblock : block.span.Inside text (between ending left rest)) (h : InText text ending tokens)
    (hleft : left <:+ tokens) (hrest : rest <:+ left) :
    { seen with attributes := seen.attributes ++ [block] }.Within text ending tokens rest := by
  refine ⟨(hseen.later h hleft hrest).name, ?_⟩
  rw [List.map_append]
  exact hseen.attributes.append (.single hblock) h hleft (List.suffix_refl left) hrest

end Seen.Within

theorem MemberContext.Starts.start_inside (hcontext : context.Starts text ending lead tokens)
    (h : token :: rest <:+ tokens) : context.start.Inside text (between ending tokens rest) := by
  obtain ⟨first, more, rfl, hmore⟩ := exists_first h
  rw [hcontext.start]
  exact hcontext.here.token_inside hmore

theorem merge_start {a b outer : Span} (ha : a.start = outer.start) (hb : b.Inside text outer) :
    (a.merge b).start = outer.start := by
  rw [← ha]
  exact min_eq_left (ha.le.trans hb.lower)

theorem field_spans (hcontext : context.Starts text ending lead tokens)
    (hseen : seen.Within text ending tokens (token :: rest)) (h : token :: rest <:+ tokens)
    {name : Token} (hname : name ∈ seen.name) :
    (context.field seen name token).Within text (between ending lead rest) ∧
      (context.field seen name token).span.start = (spanAt ending tokens).start := by
  have htokens := hcontext.here
  have hrest : rest <:+ token :: rest := List.suffix_cons token rest
  have hlater := hseen.later htokens h hrest
  have hstart := hcontext.start_inside h
  have hseparator := htokens.taken h (List.suffix_refl rest)
  have hfirst : context.start.start = (between ending tokens rest).start := by
    rw [hcontext.start]
    rfl
  have hspan := (hstart.merge (hlater.name name hname)).merge hseparator
  have hsame : (context.field seen name token).span.start = (between ending tokens rest).start :=
    merge_start (merge_start hfirst (hlater.name name hname)) hseparator
  have hblocks := hcontext.append hlater.attributes (List.suffix_refl tokens) (hrest.trans h)
  refine ⟨.field ?_ hblocks.annotations, hsame⟩
  exact hspan.widen hcontext.inText hcontext.suffix (hrest.trans h) (List.suffix_refl rest)

-- The end of a function takes at least one token.
theorem skipFunctionEnd_takes (h : skipFunctionEnd ending tokens = .done () rest) :
    ∃ token inner, tokens = token :: inner ∧ rest <:+ inner := by
  cases tokens with
  | nil => simp [skipFunctionEnd] at h
  | cons token inner =>
      refine ⟨token, inner, rfl, ?_⟩
      have hends (after : List Token) (h : skipFunctionEnd ending after = .done () rest) :
          rest <:+ after := Read.suffix_of_done (skipFunctionEnd_suffix ending after) h
      have hbehind {read : Read Unit} (hread : read.rest <:+ inner)
          (h : (read.bind fun _ after => skipFunctionEnd ending after) = .done () rest) :
          rest <:+ inner := by
        obtain ⟨_, after, hfirst, hdone⟩ := Read.bind_eq_done h
        exact (hends after hdone).trans (Read.suffix_of_done hread hfirst)
      rw [skipFunctionEnd_cons] at h
      split at h
      · cases h
        exact List.suffix_refl _
      · obtain ⟨_, after, hread, hdone⟩ := Read.bind_eq_done h
        cases hdone
        exact (skipOne_suffix .semicolon after).trans
          (Read.suffix_of_done (skipGroup_suffix ending token inner) hread)
      · exact hbehind (skipMemberInitializers_suffix ending inner) h
      · exact hbehind (skipGroup_suffix ending token inner) h
      · exact hbehind (skipGroup_suffix ending token inner) h
      · exact hbehind (skipGroup_suffix ending token inner) h
      · exact hbehind (skipAngles_suffix ending token 1 inner) h
      · cases h
      · exact hends inner h

theorem method_spans (name : String) (kind : MethodKind)
    (hcontext : context.Starts text ending lead tokens)
    (hseen : seen.Within text ending tokens left) (hleft : left <:+ tokens) :
    (context.method ending seen name kind left).Spans text ending lead tokens := by
  unfold MemberContext.method
  split
  · exact .of_nil rfl
  · next rest hend =>
    obtain ⟨token, inner, rfl, hinner⟩ := skipFunctionEnd_takes hend
    obtain ⟨first, more, rfl, hmore⟩ := exists_first hleft
    have htokens := hcontext.here
    have hrest := hinner.trans hmore
    have htaken : rest <:+ first :: more := Read.suffix_cons hrest first
    have hlater := hseen.later htokens hleft (Read.suffix_cons hinner token)
    have hblocks := hcontext.append hlater.attributes (List.suffix_refl _) htaken
    refine List.forall_mem_singleton.mpr ⟨.method ?_ hblocks.annotations, ?_⟩
    · rw [hcontext.start]
      refine htokens.spanFrom_eq hrest ▸ ?_
      exact (htokens.between_isRange hrest).self.widen hcontext.inText hcontext.suffix htaken
        (List.suffix_refl rest)
    · rw [← hcontext.start]
      rfl

theorem named_spans {name : Token} (hcontext : context.Starts text ending lead tokens)
    (hseen : seen.Within text ending tokens (token :: left)) (hleft : token :: left <:+ tokens) :
    (context.named ending seen name token left).Spans text ending lead tokens := by
  unfold MemberContext.named
  dsimp only
  generalize (if seen.isDestructor = true then MethodKind.destructor
    else if some name.word = context.className then .constructor else .regular) = kind
  split
  · split
    · exact .of_nil rfl
    · exact .of_nil rfl
  · exact method_spans _ _ hcontext hseen hleft

theorem operator_spans (hcontext : context.Starts text ending lead tokens)
    (hseen : seen.Within text ending tokens left) (hleft : left <:+ tokens) :
    (context.operator ending seen left).Spans text ending lead tokens := by
  unfold MemberContext.operator
  split
  · exact .of_nil rfl
  · next name rest hname =>
    have hrest : rest <:+ left := Read.suffix_of_done (operatorName_suffix ending left) hname
    have htokens := hcontext.here
    exact method_spans _ _ hcontext (hseen.later htokens hleft hrest) (hrest.trans hleft)

theorem functionPointer_span (h : InText text ending tokens) :
    (functionPointer ending tokens).Gives fun name rest =>
      name.span.Inside text (between ending tokens rest) := by
  have hmarks := pastPointerMarks_suffix tokens
  unfold functionPointer
  split
  · trivial
  · next name rest hname =>
    rw [hname] at hmarks
    split
    · have hexpect := Read.Gives.of_suffix (expect_suffix ending .rParen rest)
      refine hexpect.bind fun _ after hafter => ?_
      refine (Read.Gives.of_suffix (skipParens_suffix ending after)).map fun _ last hlast => ?_
      exact h.taken hmarks (hlast.trans hafter)
    · trivial

theorem MembersRead.Spans.after {α : Type} {P : α → List Token → Prop} {first : Read α}
    {next : α → List Token → MembersRead} (hfirst : first.Gives P)
    (hnext : ∀ value rest, P value rest → (next value rest).Spans text ending lead tokens) :
    (MembersRead.after first next).Spans text ending lead tokens := by
  cases first with
  | done value rest => exact hnext value rest hfirst
  | failed error rest => exact .of_nil rfl

-- By well-founded recursion; what has been seen stays inside the declaration while it goes on.
theorem memberDeclaration_spans (hcontext : context.Starts text ending lead tokens) (seen : Seen)
    (left : List Token) (hseen : seen.Within text ending tokens left) (hleft : left <:+ tokens) :
    (memberDeclaration context ending seen left).Spans text ending lead tokens := by
  match left with
  | [] =>
      rw [memberDeclaration]
      exact .of_nil rfl
  | token :: rest =>
      have htokens := hcontext.here
      have hrest : rest <:+ token :: rest := List.suffix_cons token rest
      have hinner : rest <:+ tokens := hrest.trans hleft
      have hlater := hseen.later htokens hleft hrest
      have htoken := htokens.taken hleft (List.suffix_refl rest)
      have hplain (seen : Seen) (hseen : seen.Within text ending tokens rest) :
          (memberDeclaration context ending seen rest).Spans text ending lead tokens :=
        memberDeclaration_spans hcontext seen rest hseen hinner
      have hbehind (after : List Token) (hafter : after <:+ rest) (seen : Seen)
          (hseen : seen.Within text ending tokens after) :
          (memberDeclaration context ending seen after).Spans text ending lead tokens := by
        have := hafter.length_le
        exact memberDeclaration_spans hcontext seen after hseen (hafter.trans hinner)
      have hskip {α : Type} {first : Read α} (hfirst : first.rest <:+ rest) :
          (MembersRead.after first fun _ after =>
            memberDeclaration context ending seen after).Spans text ending lead tokens :=
        .after (.of_suffix hfirst) fun _ after hafter =>
          hbehind after hafter seen (hlater.later htokens hinner hafter)
      rw [memberDeclaration_cons]
      split
      · exact hplain _ ⟨hlater.name, hlater.attributes⟩
      · exact hplain _ ⟨hlater.name, hlater.attributes⟩
      · exact hplain _ ⟨fun name hname => Option.some.inj hname ▸ htoken, hlater.attributes⟩
      · have hblock := attributeBlock_span (htokens.suffix hleft) [] (List.suffix_refl rest)
        refine .after (hblock.and_suffix (attributeBlock_suffix ending token [] rest)) ?_
        rintro block after ⟨hspan, hafter⟩
        exact hbehind after hafter _ (hseen.block hspan htokens hleft (hafter.trans hrest))
      · exact hskip (Read.suffix_bind (skipParens_suffix ending rest)
          fun _ after => specifiers_suffix ending after)
      · exact hskip (skipAngles_suffix ending token 1 rest)
      · exact operator_spans hcontext hlater hinner
      · split
        · have hpointer := functionPointer_span (htokens.suffix hinner)
          refine .after (hpointer.and_suffix (functionPointer_suffix ending rest)) ?_
          rintro name after ⟨hname, hafter⟩
          have hspan := hname.widen htokens hinner hafter (List.suffix_refl after)
          refine hbehind after hafter _ ⟨fun other hother => Option.some.inj hother ▸ hspan, ?_⟩
          exact (hlater.later htokens hinner hafter).attributes
        · split
          · exact .of_nil rfl
          · exact named_spans hcontext hseen hleft
      · exact hskip (skipInitializer_suffix ending rest)
      · exact hskip (skipInitializer_suffix ending rest)
      · exact hskip (skipGroup_suffix ending token rest)
      · exact hskip (skipGroup_suffix ending token rest)
      · split
        · exact .of_nil rfl
        · next name hname =>
          have hmore := hplain { seen with name := none, attributes := [] }
            ⟨none_inside _, Siblings.nil _⟩
          have hafter := memberDeclaration_suffix context ending
            { seen with name := none, attributes := [] } rest
          obtain ⟨hfield, hstart⟩ := field_spans hcontext hseen hleft hname
          have hupper := (htokens.suffix hinner).taken_le hafter
          exact List.forall_mem_cons.mpr ⟨⟨hfield.mono le_rfl hupper, hstart⟩, hmore⟩
      · split
        · exact .of_nil rfl
        · next name hname =>
          exact List.forall_mem_singleton.mpr (field_spans hcontext hseen hleft hname)
      · exact .of_nil rfl
      · exact hplain seen hlater
termination_by left.length
decreasing_by all_goals simp only [List.length_cons]; omega

theorem annotate_span (doc : AnnotationBlock) (member : Member) :
    (Member.annotate doc member).span = member.span := by
  cases member <;> rfl

theorem annotate_within {doc : AnnotationBlock} {member : Member}
    (hmember : member.Within text (between ending lead left))
    (hdoc : Siblings text (between ending left rest) [doc.span]) (h : InText text ending lead)
    (hleft : left <:+ lead) (hrest : rest <:+ left) :
    (Member.annotate doc member).Within text (between ending lead rest) := by
  have hlater : member.Within text (between ending lead rest) :=
    hmember.mono le_rfl ((h.suffix hleft).taken_le hrest)
  have happend {blocks : List AnnotationBlock}
      (hblocks : Siblings text (between ending lead left) (blocks.map AnnotationBlock.span)) :
      Siblings text (between ending lead rest)
        ((blocks ++ [doc]).map AnnotationBlock.span) := by
    rw [List.map_append]
    exact hblocks.append hdoc h hleft (List.suffix_refl left) hrest
  cases hmember with
  | field _ hannotations => exact .field hlater.inside (happend hannotations)
  | method _ hannotations => exact .method hlater.inside (happend hannotations)
  | type _ => exact hlater

-- The members of a declaration with the comment behind it.
theorem plainMembers_laid (hcontext : context.Starts text ending lead tokens) :
    Laid text (between ending lead (plainMembers context ending tokens).rest)
      (plainMembers context ending tokens).members := by
  have hread := memberDeclaration_spans hcontext Seen.nothing tokens
    (Seen.Within.nothing tokens tokens) (List.suffix_refl tokens)
  have hmembers := memberDeclaration_suffix context ending Seen.nothing tokens
  have hsuffix := hmembers.trans hcontext.suffix
  have hlaid : Laid text
      (between ending lead (memberDeclaration context ending Seen.nothing tokens).rest)
      (memberDeclaration context ending Seen.nothing tokens).members :=
    .of_start _ (fun member hmem => (hread member hmem).1) fun member hmem => (hread member hmem).2
  unfold plainMembers
  dsimp only
  split
  · exact hlaid
  · split
    · next doc rest htrailing =>
      have hdoc := trailingDoc_spans (hcontext.inText.suffix hsuffix)
      have hrest := trailingDoc_suffix (memberDeclaration context ending Seen.nothing tokens).rest
      rw [htrailing] at hdoc hrest
      refine ⟨List.forall_mem_map.mpr fun member hmem => ?_, ?_⟩
      · exact annotate_within (hlaid.within member hmem) hdoc hcontext.inText hsuffix hrest
      · rw [List.map_map, show Member.span ∘ Member.annotate doc = Member.span from
          funext (annotate_span doc)]
        exact hlaid.ordered
    · exact hlaid

end Members

section Types

variable {inner left : List Token}

-- The names of declarators are read from a place on, and the name that waits for its comma is
-- behind it.
theorem typeDeclarators_spans {tokens : List Token} (name : Option Token) (left : List Token)
    (h : InText text ending tokens) (hleft : left <:+ tokens)
    (hname : ∀ token ∈ name, token.span.Inside text (between ending tokens left)) :
    (typeDeclarators ending name left).Gives fun names rest =>
      Siblings text (between ending tokens rest) (names.map Token.span) := by
  match left with
  | [] =>
      rw [typeDeclarators]
      trivial
  | token :: rest =>
      have hrest : rest <:+ token :: rest := List.suffix_cons token rest
      have hinner : rest <:+ tokens := hrest.trans hleft
      have htokens := List.suffix_refl tokens
      have hpending (after : List Token) (hafter : after <:+ token :: rest) :
          Siblings text (between ending tokens after) (name.toList.map Token.span) := by
        cases name with
        | none => exact Siblings.nil _
        | some other => exact .single ((hname other rfl).widen h htokens hleft hafter)
      have hskip {first : Read Unit} (hfirst : first.rest <:+ rest) :
          (first.bind fun _ after => typeDeclarators ending name after).Gives fun names rest =>
            Siblings text (between ending tokens rest) (names.map Token.span) := by
        refine (Read.Gives.of_suffix hfirst).bind fun _ after hafter => ?_
        have := hafter.length_le
        exact typeDeclarators_spans name after h (hafter.trans hinner)
          fun other hother => (hname other hother).widen h htokens hleft (hafter.trans hrest)
      rw [typeDeclarators_cons]
      split
      · exact hpending rest hrest
      · have hmore := typeDeclarators_spans none rest (h.suffix hinner) (List.suffix_refl rest)
          (none_inside _)
        refine (hmore.and_suffix (typeDeclarators_suffix ending none rest)).map ?_
        rintro names after ⟨hnames, hafter⟩
        rw [List.map_append]
        exact (hpending rest hrest).append hnames h hinner (List.suffix_refl rest) hafter
      · trivial
      · have htoken := h.taken hleft (List.suffix_refl rest)
        exact typeDeclarators_spans (some token) rest h hinner
          fun other hother => Option.some.inj hother ▸ htoken
      · exact hskip (skipInitializer_suffix ending rest)
      · exact hskip (skipInitializer_suffix ending rest)
      · split
        · exact hskip (skipGroup_suffix ending token rest)
        · exact typeDeclarators_spans name rest h hinner
            fun other hother => (hname other hother).widen h htokens hleft hrest
termination_by left.length
decreasing_by all_goals simp only [List.length_cons]; omega

-- The span of a declaration that ends in front of `left`.
theorem declaration_inside {keyword : Token} (h : InText text ending lead)
    (hkeyword : keyword :: tokens <:+ lead) (hleft : left <:+ tokens) :
    (spanFrom ending keyword.span left).Inside text (between ending lead left) := by
  have htokens := h.suffix hkeyword
  rw [htokens.spanFrom_eq hleft]
  exact (htokens.between_isRange hleft).self.widen h hkeyword (Read.suffix_cons hleft keyword)
    (List.suffix_refl left)

-- What is read behind the keyword is inside the declaration.
theorem declaration_covers {keyword : Token} (h : InText text ending (keyword :: tokens))
    (hleft : left <:+ tokens) {span : Span} (hspan : span = spanFrom ending keyword.span left) :
    span.start ≤ (between ending tokens left).start ∧
      (between ending tokens left).stop ≤ span.stop := by
  rw [hspan, h.spanFrom_eq hleft]
  exact ⟨h.start_le (List.suffix_cons keyword tokens), le_rfl⟩

-- A type, and the fields that the declarators behind it declare.
theorem typeMembers_laid {entity : Entity} {names : List Token}
    (hentity : entity.Within text (between ending lead left))
    (hnames : Siblings text (between ending left rest) (names.map Token.span))
    (h : InText text ending lead) (hleft : left <:+ lead) (hrest : rest <:+ left)
    (access : Access) :
    Laid text (between ending lead rest) (typeMembers access entity names) := by
  have htype : Laid text (between ending lead left) [.type entity] :=
    ⟨List.forall_mem_singleton.mpr (.type hentity), List.pairwise_singleton _ _⟩
  have hfields : Laid text (between ending left rest) (names.map (declaratorField access)) := by
    refine ⟨List.forall_mem_map.mpr fun name hmem => ?_, ?_⟩
    · exact .field (hnames.inside _ (List.mem_map_of_mem hmem)) (Siblings.nil _)
    · rw [List.map_map]
      exact hnames.ordered
  exact htype.append hfields h hleft (List.suffix_refl left) hrest

theorem enumerator_spans {annotations : List AnnotationBlock}
    (hannotated : Annotated text ending lead tokens annotations) :
    (enumerator ending annotations tokens).Gives fun read rest =>
      read.1.span.Inside text (between ending tokens rest) ∧
        Siblings text (between ending lead rest)
          (read.1.annotations.map AnnotationBlock.span) := by
  cases tokens with
  | nil => trivial
  | cons name inner =>
      have h := hannotated.here
      rw [enumerator]
      split
      · refine ((specifiers_spans inner h.tail).and_suffix (specifiers_suffix ending inner)).bind ?_
        rintro attributes rest ⟨hattributes, hrest⟩
        refine (Read.Gives.of_suffix (skipValue_suffix ending rest)).bind fun _ after hafter => ?_
        have hcomma := skipOne_suffix .comma after
        have hdoc := trailingDoc_suffix (skipOne .comma after)
        have hstop := hafter.trans hrest
        refine ⟨?_, ?_⟩
        · refine h.spanFrom_eq hstop ▸ ?_
          exact (h.between_isRange hstop).self.widen h (List.suffix_refl _)
            (Read.suffix_cons hstop name) (hdoc.trans hcomma)
        · have hdocs := trailingDoc_spans (h.tail.suffix (hcomma.trans hstop))
          have hblocks := hannotated.append hattributes (List.suffix_cons name inner) hrest
          exact (hblocks.append hdocs (hcomma.trans hafter) hdoc).annotations
      · trivial

theorem enumerated_cons {decl : EnumeratorDecl} {decls : List EnumeratorDecl}
    (hspan : decl.span.Inside text (between ending tokens left))
    (hannotations : Siblings text (between ending tokens left)
      (decl.annotations.map AnnotationBlock.span))
    (hdecls : Enumerated text (between ending left rest) decls) (h : InText text ending tokens)
    (hleft : left <:+ tokens) (hrest : rest <:+ left) :
    Enumerated text (between ending tokens rest) (decl :: decls) := by
  refine ⟨?_, List.forall_mem_cons.mpr ⟨?_, fun other hmem => ?_⟩⟩
  · exact (Siblings.single hspan).append hdecls.siblings h hleft (List.suffix_refl left) hrest
  · exact hannotations.widen h (List.suffix_refl tokens) hleft hrest
  · exact (hdecls.widen h hleft hrest (List.suffix_refl rest)).annotations other hmem

theorem enumerators_spans (tokens : List Token) (h : InText text ending tokens) :
    (enumerators ending tokens).Gives fun decls rest =>
      Enumerated text (between ending tokens rest) decls := by
  rw [enumerators_eq]
  refine (leadingAnnotations_annotated h).bind fun annotations rest hannotated => ?_
  have hrest := hannotated.suffix
  split
  · exact Enumerated.nil _
  · have hdecl := enumerator_spans hannotated
    cases hread : enumerator ending annotations rest with
    | failed error after => trivial
    | done read after =>
        rw [hread] at hdecl
        obtain ⟨hspan, hblocks⟩ := hdecl
        have hafter := Read.suffix_of_done (enumerator_suffix ending annotations rest) hread
        have := enumerator_length hread
        have := hrest.length_le
        have hfirst := hspan.widen h hrest hafter (List.suffix_refl after)
        dsimp only [Read.bind]
        split
        · have hmore := enumerators_spans after (h.suffix (hafter.trans hrest))
          refine (hmore.and_suffix (enumerators_suffix ending after)).map ?_
          rintro decls last ⟨hdecls, hlast⟩
          exact enumerated_cons hfirst hblocks hdecls h (hafter.trans hrest) hlast
        · exact ⟨.single hfirst, List.forall_mem_singleton.mpr hblocks⟩
termination_by tokens.length
decreasing_by omega

-- An enum that ends in front of `left`, with the declarators behind it.
theorem enumDecl_laid {decl : EnumDecl} {keyword : Token} {names : List Token}
    (hspan : decl.span = spanFrom ending keyword.span left)
    (hannotated : Annotated text ending lead left decl.annotations)
    (hdecls : Enumerated text (between ending tokens left) decl.enumerators)
    (hnames : Siblings text (between ending left rest) (names.map Token.span))
    (hkeyword : keyword :: tokens <:+ lead) (hleft : left <:+ tokens) (hrest : rest <:+ left)
    (access : Access) :
    Laid text (between ending lead rest) (typeMembers access (.enumDecl decl) names) := by
  have h := hannotated.inText
  have hinside : decl.span.Inside text (between ending lead left) :=
    hspan ▸ declaration_inside h hkeyword hleft
  obtain ⟨hlower, hupper⟩ := declaration_covers (h.suffix hkeyword) hleft hspan
  have hdecl := Entity.Within.enumDecl hinside hannotated.annotations (hdecls.mono hlower hupper)
  exact typeMembers_laid hdecl hnames h hannotated.suffix hrest access

theorem enumDeclaration_laid {annotations : List AnnotationBlock} {keyword : Token}
    (hannotated : Annotated text ending lead (keyword :: tokens) annotations) (access : Access) :
    (enumDeclaration ending annotations keyword tokens).Gives fun read rest =>
      Laid text (between ending lead rest) (typeMembers access (.enumDecl read.1) read.2) := by
  have hkeyword := hannotated.suffix
  have htokens := hannotated.here.tail
  have hopening : (specifiers ending (if kindAt tokens = .classKw ∨ kindAt tokens = .structKw
      then tokens.tail else tokens)).Gives fun attributes rest =>
        Annotated text ending lead rest (annotations ++ attributes) ∧ rest <:+ tokens := by
    have hbehind (inner : List Token) (hinner : inner <:+ tokens) :
        (specifiers ending inner).Gives fun attributes rest =>
          Annotated text ending lead rest (annotations ++ attributes) ∧ rest <:+ tokens := by
      refine ((specifiers_spans inner (htokens.suffix hinner)).and_suffix
        (specifiers_suffix ending inner)).imp ?_
      rintro attributes rest ⟨hattributes, hrest⟩
      exact ⟨hannotated.append hattributes (Read.suffix_cons hinner keyword) hrest,
        hrest.trans hinner⟩
    split
    · exact hbehind _ (List.tail_suffix tokens)
    · exact hbehind tokens (List.suffix_refl tokens)
  refine hopening.bind ?_
  rintro attributes rest ⟨hannotated, hrest⟩
  have hunderlying : ((if kindAt (qualifiedName rest).2 = .colon then
      skipUnderlyingType ending (qualifiedName rest).2.tail
      else .done () (qualifiedName rest).2) : Read Unit).Gives fun _ after => after <:+ rest := by
    refine .of_suffix (List.IsSuffix.trans ?_ (qualifiedName_suffix rest))
    split
    · exact (skipUnderlyingType_suffix ending _).trans (List.tail_suffix _)
    · exact List.suffix_refl _
  refine hunderlying.bind fun _ after hafter => ?_
  split
  · have htail := (List.tail_suffix after).trans hafter
    exact enumDecl_laid rfl (hannotated.later htail) (Enumerated.nil _) (Siblings.nil _) hkeyword
      (htail.trans hrest) (List.suffix_refl _) access
  · refine (Read.Gives.of_suffix (expect_suffix ending .lBrace after)).bind fun _ body hbody => ?_
    have hstart := hbody.trans (hafter.trans hrest)
    refine ((enumerators_spans body (htokens.suffix hstart)).and_suffix
      (enumerators_suffix ending body)).bind ?_
    rintro decls closing ⟨hdecls, hclosing⟩
    refine (Read.Gives.of_suffix (expect_suffix ending .rBrace closing)).bind fun _ stop hstop => ?_
    have hend := hstop.trans hclosing
    have hnames := typeDeclarators_spans none stop (htokens.suffix (hend.trans hstart))
      (List.suffix_refl stop) (none_inside _)
    refine (hnames.and_suffix (typeDeclarators_suffix ending none stop)).map ?_
    rintro names last ⟨hnames, hlast⟩
    exact enumDecl_laid rfl (hannotated.later (hend.trans (hbody.trans hafter)))
      (hdecls.widen htokens hstart hclosing hstop) hnames hkeyword (hend.trans hstart) hlast access

end Types

end Reflection.Header
