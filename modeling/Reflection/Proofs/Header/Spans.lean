import Mathlib.Order.MinMax
import Reflection.Header.Types
import Reflection.Proofs.Placement

namespace Reflection

-- Both ends are between two characters of the text, in this order.
structure Span.IsRange (text : List Char) (span : Span) : Prop where
  ordered : span.start ≤ span.stop
  inText : span.stop ≤ Text.byteLength text
  start : Text.IsBoundary text span.start
  stop : Text.IsBoundary text span.stop

structure Span.Inside (text : List Char) (span outer : Span) : Prop
    extends Span.IsRange text span where
  lower : outer.start ≤ span.start
  upper : span.stop ≤ outer.stop

-- Spans inside another one, none of which starts in front of an earlier one.
structure Siblings (text : List Char) (outer : Span) (spans : List Span) : Prop where
  inside : ∀ span ∈ spans, span.Inside text outer
  ordered : spans.Pairwise (·.start ≤ ·.start)

namespace Span

variable {text : List Char} {span outer larger a b : Span}

theorem isRange_of_boundaries (horder : span.start ≤ span.stop)
    (hstart : Text.IsBoundary text span.start) (hstop : Text.IsBoundary text span.stop) :
    span.IsRange text :=
  ⟨horder, hstop.le, hstart, hstop⟩

theorem IsRange.self (h : span.IsRange text) : span.Inside text span := ⟨h, le_rfl, le_rfl⟩

theorem Inside.mono (h : span.Inside text outer) (hlower : larger.start ≤ outer.start)
    (hupper : outer.stop ≤ larger.stop) : span.Inside text larger :=
  ⟨h.toIsRange, hlower.trans h.lower, h.upper.trans hupper⟩

theorem IsRange.merge (ha : a.IsRange text) (hb : b.IsRange text) : (a.merge b).IsRange text := by
  have hstart : Text.IsBoundary text (min a.start b.start) := by
    rcases min_choice a.start b.start with hmin | hmin <;> rw [hmin]
    · exact ha.start
    · exact hb.start
  have hstop : Text.IsBoundary text (max a.stop b.stop) := by
    rcases max_choice a.stop b.stop with hmax | hmax <;> rw [hmax]
    · exact ha.stop
    · exact hb.stop
  refine isRange_of_boundaries ?_ hstart hstop
  exact (min_le_left _ _).trans (ha.ordered.trans (le_max_left _ _))

theorem Inside.merge (ha : a.Inside text outer) (hb : b.Inside text outer) :
    (a.merge b).Inside text outer :=
  ⟨ha.toIsRange.merge hb.toIsRange, le_min ha.lower hb.lower, max_le ha.upper hb.upper⟩

theorem Inside.foldl_merge {α : Type} {spanOf : α → Span} {values : List α}
    (h : span.Inside text outer) (hvalues : ∀ value ∈ values, (spanOf value).Inside text outer) :
    (values.foldl (fun span value => span.merge (spanOf value)) span).Inside text outer := by
  induction values generalizing span with
  | nil => exact h
  | cons value values ih =>
      obtain ⟨hvalue, hvalues⟩ := List.forall_mem_cons.mp hvalues
      exact ih (h.merge hvalue) hvalues

end Span

namespace Siblings

variable {text : List Char} {span outer larger : Span} {spans : List Span}

theorem nil (outer : Span) : Siblings text outer [] := ⟨by simp, .nil⟩

theorem single (h : span.Inside text outer) : Siblings text outer [span] :=
  ⟨by simpa using h, List.pairwise_singleton _ _⟩

theorem mono (h : Siblings text outer spans) (hlower : larger.start ≤ outer.start)
    (hupper : outer.stop ≤ larger.stop) : Siblings text larger spans :=
  ⟨fun span hmem => (h.inside span hmem).mono hlower hupper, h.ordered⟩

end Siblings

def Member.span : Member → Span
  | field decl => decl.span
  | method decl => decl.span
  | type entity => entity.span

-- The enumerators of an enum, with their annotations.
structure Enumerated (text : List Char) (outer : Span) (decls : List EnumeratorDecl) : Prop where
  siblings : Siblings text outer (decls.map EnumeratorDecl.span)
  annotations : ∀ decl ∈ decls, Siblings text outer (decl.annotations.map AnnotationBlock.span)

-- A declaration inside `outer`: so are its annotations, and what it contains is inside its own
-- span.
mutual

inductive Entity.Within (text : List Char) : Span → Entity → Prop where
  | namespaceDecl {outer : Span} {head : NamespaceHead} {entities : List Entity}
      (hspan : head.span.Inside text outer)
      (hentities : ∀ entity ∈ entities, entity.Within text head.span)
      (hordered : (entities.map Entity.span).Pairwise (·.start ≤ ·.start)) :
      Entity.Within text outer (.namespaceDecl head entities)
  | classDecl {outer : Span} {head : ClassHead} {members : List Member}
      (hspan : head.span.Inside text outer)
      (hannotations : Siblings text outer (head.annotations.map AnnotationBlock.span))
      (hmembers : ∀ member ∈ members, member.Within text head.span)
      (hordered : (members.map Member.span).Pairwise (·.start ≤ ·.start)) :
      Entity.Within text outer (.classDecl head members)
  | enumDecl {outer : Span} {decl : EnumDecl}
      (hspan : decl.span.Inside text outer)
      (hannotations : Siblings text outer (decl.annotations.map AnnotationBlock.span))
      (henumerators : Enumerated text decl.span decl.enumerators) :
      Entity.Within text outer (.enumDecl decl)

inductive Member.Within (text : List Char) : Span → Member → Prop where
  | field {outer : Span} {decl : FieldDecl}
      (hspan : decl.span.Inside text outer)
      (hannotations : Siblings text outer (decl.annotations.map AnnotationBlock.span)) :
      Member.Within text outer (.field decl)
  | method {outer : Span} {decl : MethodDecl}
      (hspan : decl.span.Inside text outer)
      (hannotations : Siblings text outer (decl.annotations.map AnnotationBlock.span)) :
      Member.Within text outer (.method decl)
  | type {outer : Span} {entity : Entity} (hentity : entity.Within text outer) :
      Member.Within text outer (.type entity)

end

-- Declarations of one class body or scope.
structure Laid (text : List Char) (outer : Span) (members : List Member) : Prop where
  within : ∀ member ∈ members, member.Within text outer
  ordered : (members.map Member.span).Pairwise (·.start ≤ ·.start)

section Trees

variable {text : List Char} {outer larger : Span}

theorem Entity.Within.inside {entity : Entity} (h : entity.Within text outer) :
    entity.span.Inside text outer := by
  cases h with
  | namespaceDecl hspan _ _ => exact hspan
  | classDecl hspan _ _ _ => exact hspan
  | enumDecl hspan _ _ => exact hspan

theorem Entity.Within.mono {entity : Entity} (h : entity.Within text outer)
    (hlower : larger.start ≤ outer.start) (hupper : outer.stop ≤ larger.stop) :
    entity.Within text larger := by
  cases h with
  | namespaceDecl hspan hentities hordered =>
      exact .namespaceDecl (hspan.mono hlower hupper) hentities hordered
  | classDecl hspan hannotations hmembers hordered =>
      exact .classDecl (hspan.mono hlower hupper) (hannotations.mono hlower hupper) hmembers
        hordered
  | enumDecl hspan hannotations henumerators =>
      exact .enumDecl (hspan.mono hlower hupper) (hannotations.mono hlower hupper) henumerators

theorem Member.Within.inside {member : Member} (h : member.Within text outer) :
    member.span.Inside text outer := by
  cases h with
  | field hspan _ => exact hspan
  | method hspan _ => exact hspan
  | type hentity => exact hentity.inside

theorem Member.Within.mono {member : Member} (h : member.Within text outer)
    (hlower : larger.start ≤ outer.start) (hupper : outer.stop ≤ larger.stop) :
    member.Within text larger := by
  cases h with
  | field hspan hannotations =>
      exact .field (hspan.mono hlower hupper) (hannotations.mono hlower hupper)
  | method hspan hannotations =>
      exact .method (hspan.mono hlower hupper) (hannotations.mono hlower hupper)
  | type hentity => exact .type (hentity.mono hlower hupper)

namespace Enumerated

variable {decls : List EnumeratorDecl}

theorem nil (outer : Span) : Enumerated text outer [] := ⟨Siblings.nil outer, by simp⟩

theorem mono (h : Enumerated text outer decls) (hlower : larger.start ≤ outer.start)
    (hupper : outer.stop ≤ larger.stop) : Enumerated text larger decls :=
  ⟨h.siblings.mono hlower hupper, fun decl hmem => (h.annotations decl hmem).mono hlower hupper⟩

end Enumerated

namespace Laid

variable {member : Member} {members : List Member}

theorem nil (outer : Span) : Laid text outer [] := ⟨by simp, .nil⟩

theorem siblings (h : Laid text outer members) :
    Siblings text outer (members.map Member.span) :=
  ⟨List.forall_mem_map.mpr fun member hmem => (h.within member hmem).inside, h.ordered⟩

theorem mono (h : Laid text outer members) (hlower : larger.start ≤ outer.start)
    (hupper : outer.stop ≤ larger.stop) : Laid text larger members :=
  ⟨fun member hmem => (h.within member hmem).mono hlower hupper, h.ordered⟩

theorem head (h : Laid text outer (member :: members)) : Laid text outer [member] :=
  ⟨List.forall_mem_singleton.mpr (h.within member List.mem_cons_self),
    List.pairwise_singleton _ _⟩

-- Members that start at the same place.
theorem of_start (first : Nat) (hwithin : ∀ member ∈ members, member.Within text outer)
    (hstart : ∀ member ∈ members, member.span.start = first) : Laid text outer members := by
  refine ⟨hwithin, List.pairwise_map.mpr (List.pairwise_of_forall_mem_list ?_)⟩
  intro member hmember other hother
  rw [hstart member hmember, hstart other hother]

end Laid

end Trees

namespace Header

-- Tokens that stand at some place of the text, up to its end.
def InText (text : List Char) (ending : Token) (tokens : List Token) : Prop :=
  ∃ before, Placed text ending before tokens

-- From the next of the tokens to the last one that has been taken.
def between (ending : Token) (tokens rest : List Token) : Span :=
  ⟨(spanAt ending tokens).start, takenUpTo ending rest⟩

variable {text : List Char} {ending token : Token} {tokens inner left rest : List Token}

theorem inText_scan (text : List Char) : InText text (scan text).ending (scan text).items :=
  ⟨[], scan_placed Lexical.lexeme .eof text⟩

theorem takenUpTo_le_start (tokens : List Token) :
    takenUpTo ending tokens ≤ (spanAt ending tokens).start := Nat.sub_le _ _

namespace InText

theorem suffix (h : InText text ending tokens) (hrest : rest <:+ tokens) :
    InText text ending rest := by
  obtain ⟨before, hplaced⟩ := h
  obtain ⟨more, hmore⟩ := hplaced.of_suffix hrest
  exact ⟨_, hmore⟩

theorem tail (h : InText text ending (token :: rest)) : InText text ending rest :=
  h.suffix (List.suffix_cons token rest)

theorem ending_span (h : InText text ending tokens) :
    ending.span = ⟨Text.byteLength text, Text.byteLength text⟩ := by
  obtain ⟨before, hplaced⟩ := h.suffix List.nil_suffix
  cases hplaced with
  | nil _ hstart hnone =>
      rw [Token.span, Token.stop, hstart, hnone]
      rfl

theorem isRange (h : InText text ending tokens) : (spanAt ending tokens).IsRange text := by
  cases tokens with
  | nil =>
      have hend : Text.IsBoundary text (Text.byteLength text) :=
        Text.isBoundary_of_isPrefix (List.prefix_refl text)
      rw [show spanAt ending [] = ending.span from rfl, h.ending_span]
      exact Span.isRange_of_boundaries le_rfl hend hend
  | cons token rest =>
      obtain ⟨before, hplaced⟩ := h
      have hstop := hplaced.stop_eq
      have hlead := hplaced.isPrefix_lead
      have hspelled := hplaced.isPrefix_spelled
      cases hplaced with
      | cons hstart _ =>
          exact Span.isRange_of_boundaries (Nat.le_add_right _ _) ⟨_, hlead, hstart.symm⟩
            ⟨_, hspelled, hstop.symm⟩

theorem taken_boundary (h : InText text ending tokens) :
    Text.IsBoundary text (takenUpTo ending tokens) := by
  obtain ⟨before, hplaced⟩ := h
  have hprefix := hplaced.isPrefix_before
  refine ⟨before, hprefix, ?_⟩
  cases hplaced with
  | nil htext hstart _ =>
      have hlength := congrArg Text.byteLength htext
      rw [Text.byteLength_append] at hlength
      simp only [takenUpTo, List.headD_nil, Token.leadStart, hstart]
      omega
  | cons hstart _ =>
      simp only [takenUpTo, List.headD_cons, Token.leadStart, hstart, Text.byteLength_append]
      omega

-- Where a token stops, all up to it has been taken.
theorem taken_eq_stop (h : InText text ending (token :: rest)) :
    takenUpTo ending rest = token.stop := by
  obtain ⟨before, hplaced⟩ := h
  have hstop := hplaced.stop_eq
  cases hplaced with
  | cons _ hrest =>
      cases hrest with
      | nil htext hstart _ =>
          have hlength := congrArg Text.byteLength htext
          rw [Text.byteLength_append] at hlength
          simp only [takenUpTo, List.headD_nil, Token.leadStart, hstart, hstop]
          omega
      | cons hstart _ =>
          simp only [takenUpTo, List.headD_cons, Token.leadStart, hstart, hstop,
            Text.byteLength_append]
          omega

theorem start_le_taken (h : InText text ending (token :: rest)) :
    token.start ≤ takenUpTo ending rest := by
  rw [h.taken_eq_stop]
  exact Nat.le_add_right _ _

theorem taken_le (h : InText text ending tokens) (hrest : rest <:+ tokens) :
    takenUpTo ending tokens ≤ takenUpTo ending rest := by
  obtain ⟨front, rfl⟩ := hrest
  induction front with
  | nil => exact le_rfl
  | cons token front ih =>
      calc takenUpTo ending (token :: (front ++ rest))
          ≤ token.start := takenUpTo_le_start _
        _ ≤ takenUpTo ending (front ++ rest) := h.start_le_taken
        _ ≤ takenUpTo ending rest := ih h.tail

theorem start_le (h : InText text ending tokens) (hrest : rest <:+ tokens) :
    (spanAt ending tokens).start ≤ (spanAt ending rest).start := by
  cases tokens with
  | nil =>
      rw [List.suffix_nil.mp hrest]
  | cons token others =>
      rcases List.suffix_cons_iff.mp hrest with rfl | hothers
      · exact le_rfl
      · exact h.start_le_taken.trans ((h.tail.taken_le hothers).trans (takenUpTo_le_start rest))

theorem between_isRange (h : InText text ending (token :: tokens)) (hrest : rest <:+ tokens) :
    (between ending (token :: tokens) rest).IsRange text :=
  Span.isRange_of_boundaries (h.start_le_taken.trans (h.tail.taken_le hrest)) h.isRange.start
    (h.tail.suffix hrest).taken_boundary

-- The span of a declaration ends with the last token taken, which is not in front of its keyword.
theorem spanFrom_eq (h : InText text ending (token :: tokens)) (hrest : rest <:+ tokens) :
    spanFrom ending token.span rest = between ending (token :: tokens) rest := by
  have hstop : token.span.stop ≤ takenUpTo ending rest :=
    h.taken_eq_stop.symm.le.trans (h.tail.taken_le hrest)
  rw [spanFrom, max_eq_right hstop]
  rfl

-- A token that has been taken.
theorem token_inside (h : InText text ending (token :: tokens)) (hrest : rest <:+ tokens) :
    token.span.Inside text (between ending (token :: tokens) rest) :=
  ⟨h.isRange, le_rfl, h.taken_eq_stop.symm.le.trans (h.tail.taken_le hrest)⟩

end InText

-- Reading that starts further back and goes on further.
theorem between_lower (h : InText text ending tokens) (hinner : inner <:+ tokens) :
    (between ending tokens rest).start ≤ (between ending inner left).start := h.start_le hinner

theorem between_upper (h : InText text ending tokens) (hleft : left <:+ tokens)
    (hrest : rest <:+ left) :
    (between ending inner left).stop ≤ (between ending tokens rest).stop :=
  (h.suffix hleft).taken_le hrest

end Header

section Widen

open Header

variable {text : List Char} {ending : Header.Token} {tokens inner left rest : List Header.Token}
  {spans others : List Span} {members more : List Member}

theorem Span.Inside.widen {span : Span} (hspan : span.Inside text (between ending inner left))
    (h : InText text ending tokens) (hinner : inner <:+ tokens) (hleft : left <:+ inner)
    (hrest : rest <:+ left) : span.Inside text (between ending tokens rest) :=
  hspan.mono (between_lower h hinner) (between_upper h (hleft.trans hinner) hrest)

-- A token that is taken on the way.
theorem Header.InText.taken {token : Header.Token} (h : InText text ending tokens)
    (htoken : token :: left <:+ tokens) (hrest : rest <:+ left) :
    token.span.Inside text (between ending tokens rest) :=
  ((h.suffix htoken).token_inside hrest).widen h htoken (Read.suffix_cons hrest token)
    (List.suffix_refl rest)

theorem Siblings.widen (hspans : Siblings text (between ending inner left) spans)
    (h : InText text ending tokens) (hinner : inner <:+ tokens) (hleft : left <:+ inner)
    (hrest : rest <:+ left) : Siblings text (between ending tokens rest) spans :=
  hspans.mono (between_lower h hinner) (between_upper h (hleft.trans hinner) hrest)

-- What is read behind something else starts behind all of it.
theorem Siblings.append (hspans : Siblings text (between ending tokens left) spans)
    (hothers : Siblings text (between ending inner rest) others) (h : InText text ending tokens)
    (hleft : left <:+ tokens) (hinner : inner <:+ left) (hrest : rest <:+ inner) :
    Siblings text (between ending tokens rest) (spans ++ others) := by
  have hfirst : Siblings text (between ending tokens rest) spans :=
    hspans.widen h (List.suffix_refl tokens) hleft (hrest.trans hinner)
  have hsecond : Siblings text (between ending tokens rest) others :=
    hothers.widen h (hinner.trans hleft) hrest (List.suffix_refl rest)
  refine ⟨List.forall_mem_append.mpr ⟨hfirst.inside, hsecond.inside⟩,
    List.pairwise_append.mpr ⟨hspans.ordered, hothers.ordered, ?_⟩⟩
  intro span hspan other hother
  calc span.start
      ≤ span.stop := (hspans.inside span hspan).ordered
    _ ≤ takenUpTo ending left := (hspans.inside span hspan).upper
    _ ≤ takenUpTo ending inner := (h.suffix hleft).taken_le hinner
    _ ≤ (spanAt ending inner).start := takenUpTo_le_start inner
    _ ≤ other.start := (hothers.inside other hother).lower

theorem Enumerated.widen {decls : List EnumeratorDecl}
    (hdecls : Enumerated text (between ending inner left) decls) (h : InText text ending tokens)
    (hinner : inner <:+ tokens) (hleft : left <:+ inner) (hrest : rest <:+ left) :
    Enumerated text (between ending tokens rest) decls :=
  hdecls.mono (between_lower h hinner) (between_upper h (hleft.trans hinner) hrest)

theorem Laid.widen (hmembers : Laid text (between ending inner left) members)
    (h : InText text ending tokens) (hinner : inner <:+ tokens) (hleft : left <:+ inner)
    (hrest : rest <:+ left) : Laid text (between ending tokens rest) members :=
  hmembers.mono (between_lower h hinner) (between_upper h (hleft.trans hinner) hrest)

theorem Laid.append (hmembers : Laid text (between ending tokens left) members)
    (hmore : Laid text (between ending inner rest) more) (h : InText text ending tokens)
    (hleft : left <:+ tokens) (hinner : inner <:+ left) (hrest : rest <:+ inner) :
    Laid text (between ending tokens rest) (members ++ more) := by
  have hfirst := hmembers.widen h (List.suffix_refl tokens) hleft (hrest.trans hinner)
  have hsecond := hmore.widen h (hinner.trans hleft) hrest (List.suffix_refl rest)
  refine ⟨List.forall_mem_append.mpr ⟨hfirst.within, hsecond.within⟩, ?_⟩
  rw [List.map_append]
  exact (hmembers.siblings.append hmore.siblings h hleft hinner hrest).ordered

end Widen

end Reflection
