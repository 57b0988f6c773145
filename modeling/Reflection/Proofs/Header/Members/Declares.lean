import Reflection.Proofs.Header.Members.Bodies

namespace Reflection.Header

variable {bound : Nat} {ending : Token} {className : Option String} {access : Access}
  {annotations : List AnnotationBlock} {members : List Member} {tokens rest : List Token}

-- The comment behind a declaration belongs to all of its members.
def commented (doc : Option AnnotationBlock) (members : List Member) : List Member :=
  match doc with
  | none => members
  | some block => members.map (Member.annotate block)

theorem unplacedMembers_commented (doc : Option AnnotationBlock) {found : List Member}
    (h : unplacedMembers found = unplacedMembers members) :
    unplacedMembers (commented doc found) = unplacedMembers (commented doc members) := by
  cases doc with
  | none => exact h
  | some block => rw [commented, commented, unplacedMembers_annotate, unplacedMembers_annotate, h]

theorem length_unplaced_commented (doc : Option AnnotationBlock) (members : List Member) :
    (unplacedMembers (commented doc members)).length = members.length := by
  rw [unplacedMembers_eq_map, List.length_map]
  cases doc with
  | none => rfl
  | some block => exact List.length_map _

theorem commented_method_ne {doc other : Option AnnotationBlock} {method : MethodDecl}
    {field : FieldDecl} :
    unplacedMembers (commented doc [.method method]) ≠
      unplacedMembers (commented other [.field field]) := by
  cases doc with
  | none => cases other <;> nofun
  | some block => cases other <;> nofun

-- A step that gives these members and no error, and goes on at `rest` under the same access.
structure MemberStep.Declares (access : Access) (members : List Member) (rest : List Token)
    (step : MemberStep bound) : Prop where
  found : unplacedMembers step.members = unplacedMembers members
  keeps : step.access = access
  unreported : step.errors = []
  goesOn : step.next = rest

theorem MembersRead.annotated_eq {read : MembersRead} (h : read.error = none) :
    read.annotated = ⟨commented (trailingDoc read.rest).1 read.members, none,
      (trailingDoc read.rest).2⟩ := by
  obtain ⟨found, error, left⟩ := read
  cases h
  unfold annotated commented
  dsimp only
  split
  · next doc after hdoc => rw [hdoc]
  · next after hdoc =>
    have hsame : (trailingDoc left).2 = left := by
      unfold trailingDoc at hdoc ⊢
      split
      · split <;> simp_all
      · rfl
    rw [hsame, hdoc]

theorem MembersRead.annotated_error (read : MembersRead) : read.annotated.error = read.error := by
  cases h : read.error with
  | none => rw [annotated_eq h]
  | some error => rw [annotated_none (.inl (by rw [h]; rfl)), h]

theorem MemberStep.ofMembers_declares_iff {read given : MembersRead}
    (hgiven : given = read.annotated) (hle : given.rest.length ≤ bound) :
    (MemberStep.ofMembers access given hle).Declares access members rest ↔
      read.error = none ∧
        unplacedMembers (commented (trailingDoc read.rest).1 read.members) =
          unplacedMembers members ∧
        (trailingDoc read.rest).2 = rest := by
  subst hgiven
  have herror := read.annotated_error
  constructor
  · intro h
    have hnone : read.error = none := by
      have hreports := h.unreported
      rw [← herror]
      simpa [ofMembers, errors] using hreports
    have hfound := h.found
    have hrest := h.goesOn
    simp only [ofMembers, next, read.annotated_eq hnone] at hfound hrest
    exact ⟨hnone, hfound, hrest⟩
  · rintro ⟨hnone, hfound, hrest⟩
    constructor <;> simp [ofMembers, errors, next, MembersRead.annotated_eq hnone, hfound, hrest]

-- A declaration of fields or a function declares what its tokens are read as, with the comment
-- behind it.
theorem member_declares_iff {token : Token} {more : List Token}
    (hform : memberForm (token :: more) = .plain) :
    (member .tolerant ending className access annotations (token :: more)).Declares access members
        rest ↔
      let read := memberDeclaration ⟨token.span, annotations, access, className⟩ ending .nothing
        (token :: more)
      read.error = none ∧
        unplacedMembers (commented (trailingDoc read.rest).1 read.members) =
          unplacedMembers members ∧
        (trailingDoc read.rest).2 = rest := by
  rw [member_cons, hform]
  exact MemberStep.ofMembers_declares_iff (plainMembers_eq_annotated _) _

-- A declaration that is read to its end.
theorem member_declares (hform : memberForm tokens = .plain)
    (hread : ∀ start, ∃ found,
      memberDeclaration ⟨start, annotations, access, className⟩ ending .nothing tokens =
          ⟨found, none, rest⟩ ∧
        unplacedMembers found = unplacedMembers members) :
    (member .tolerant ending className access annotations tokens).Declares access
      (commented (trailingDoc rest).1 members) (trailingDoc rest).2 := by
  cases tokens with
  | nil =>
      obtain ⟨found, hfound, _⟩ := hread .none
      rw [memberDeclaration] at hfound
      cases hfound
  | cons token more =>
      obtain ⟨found, hfound, hmembers⟩ := hread token.span
      rw [member_declares_iff hform, hfound]
      exact ⟨rfl, unplacedMembers_commented _ hmembers, rfl⟩

-- Annotations in front of a declaration are read before it.
theorem memberStep_declares_iff {front : List Token}
    (hlead : leadingAnnotations ending front = .done annotations tokens) :
    (memberStep .tolerant ending className access front).Declares access members rest ↔
      (member .tolerant ending className access annotations tokens).Declares access members
        rest := by
  rw [memberStep_eq_after, MemberStep.after_done hlead]
  exact ⟨fun h => ⟨h.found, h.keeps, h.unreported, h.goesOn⟩,
    fun h => ⟨h.found, h.keeps, h.unreported, h.goesOn⟩⟩

-- In a class body, a declaration stands for its members, whatever else is around it.
theorem classBody_extends_declared {front : List Token}
    (hlead : leadingAnnotations ending front = .done annotations tokens)
    (hopen : kindAt tokens ≠ .rBrace)
    (h : (member .tolerant ending className access annotations tokens).Declares access members rest)
    (hlength : rest.length < tokens.length) :
    ∃ found, unplacedMembers found = unplacedMembers members ∧
      Recorded.Extends found [] (classBody .tolerant ending className access rest)
        (classBody .tolerant ending className access front) := by
  have hshorter := leadingAnnotations_length hlead
  have hstep := (memberStep_declares_iff hlead).mpr h
  cases front with
  | nil =>
      rw [List.length_nil] at hshorter
      omega
  | cons token more =>
      have hfirst : token.kind ≠ .rBrace := by
        intro hkind
        rw [leadingAnnotations_plain (by simp [hkind])] at hlead
        cases hlead
        exact hopen hkind
      have hextends := classBody_next className access hfirst hstep.goesOn (by omega)
      rw [hstep.keeps, hstep.unreported] at hextends
      exact ⟨_, hstep.found, hextends⟩

theorem classBody_declares {front : List Token}
    (hlead : leadingAnnotations ending front = .done annotations tokens)
    (hform : memberForm tokens = .plain)
    (h : (member .tolerant ending className access annotations tokens).Declares access members rest)
    (hlength : rest.length < tokens.length) :
    ∃ found, unplacedMembers found = unplacedMembers members ∧
      Recorded.Extends found [] (classBody .tolerant ending className access rest)
        (classBody .tolerant ending className access front) := by
  refine classBody_extends_declared hlead (fun hkind => ?_) h hlength
  rw [memberForm, hkind] at hform
  cases hform

-- What is read as the declaration of a type gives no members, or a type first.
theorem MemberStep.not_declares_type {α : Type} {smaller : Nat} {read : Recorded α smaller}
    {give : α → List Member} (hle : smaller ≤ bound)
    (htype : ∀ value, ∃ entity others, give value = .type entity :: others)
    (hfield : ∃ decl others, members = .field decl :: others) :
    ¬(MemberStep.ofRecorded access ((read.map give).within hle)).Declares access members rest := by
  intro h
  obtain ⟨decl, fields, rfl⟩ := hfield
  have hfound := h.found
  have hunreported := h.unreported
  unfold ofRecorded at hfound hunreported
  dsimp only [Recorded.within, Recorded.map] at hfound hunreported
  cases houtcome : read.outcome with
  | error error => simp [houtcome, errors, Except.map] at hunreported
  | ok value =>
      obtain ⟨entity, others, hgive⟩ := htype value
      simp [houtcome, Except.map, hgive, unplacedMembers, Member.unplaced] at hfound

section Functions

variable {context : MemberContext} {seen : Seen}

-- What is read behind the name of a function: an error, or the function alone.
inductive MembersRead.IsFunction (context : MemberContext) (seen : Seen) : MembersRead → Prop where
  | failed (error : ParseError) (rest : List Token) : IsFunction context seen (.failed error rest)
  | read (name : String) (kind : MethodKind) (span : Span) (rest : List Token) :
      IsFunction context seen ⟨[.method ⟨name, kind, seen.isStatic, context.access,
        context.annotations ++ seen.attributes, span⟩], none, rest⟩

theorem MembersRead.IsFunction.single {read : MembersRead} (h : read.IsFunction context seen) :
    read.members = [] ∨ ∃ decl, read.members = [.method decl] := by
  cases h with
  | failed => exact .inl rfl
  | read => exact .inr ⟨_, rfl⟩

theorem method_isFunction (name : String) (kind : MethodKind) :
    (context.method ending seen name kind tokens).IsFunction context seen := by
  unfold MemberContext.method
  split
  · exact .failed _ _
  · exact .read _ _ _ _

theorem operator_isFunction : (context.operator ending seen tokens).IsFunction context seen := by
  unfold MemberContext.operator
  split
  · exact .failed _ _
  · exact method_isFunction _ _

-- The invocation of a macro is a name that stands alone.
theorem named_isFunction (name opening : Token) :
    (context.named ending seen name opening tokens).IsFunction context seen ∨
      seen.names = 1 ∧ (context.named ending seen name opening tokens).members = [] := by
  unfold MemberContext.named
  generalize (if seen.isDestructor then MethodKind.destructor
    else if some name.word = context.className then .constructor else .regular) = kind
  dsimp only
  split
  · next halone =>
    refine .inr ⟨halone.2, ?_⟩
    split <;> rfl
  · exact .inl (method_isFunction _ _)

end Functions

section Briefly

-- A field or function by its name, its access and the texts of its annotations.
def Member.brief : Member → Option (String × Access × List String)
  | .field decl => some (decl.name, decl.access, decl.annotations.map AnnotationBlock.text)
  | .method decl => some (decl.name, decl.access, decl.annotations.map AnnotationBlock.text)
  | .type _ => none

def Entity.briefs : Entity → List (String × Access × List String)
  | .classDecl _ members => members.filterMap Member.brief
  | _ => []

-- The fields and functions of the classes of a header, and the messages of what is reported.
def parsedBriefly (text : String) :
    Option (List (String × Access × List String) × List String) :=
  (parse .tolerant text.toList).toOption.map fun read =>
    (read.tree.entities.flatMap Entity.briefs, read.recovered.map ParseError.message)

end Briefly

end Reflection.Header
