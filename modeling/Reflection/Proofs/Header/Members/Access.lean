import Reflection.Proofs.Header.Members.Declares

namespace Reflection.Header

variable {ending : Token}

-- The access that is recorded of a field or function.
def recordedAccess : Member → Option Access
  | .field decl => some decl.access
  | .method decl => some decl.access
  | .type _ => none

section Plain

variable {context : MemberContext} {seen : Seen} {tokens : List Token}

theorem MembersRead.IsFunction.access {read : MembersRead} (h : read.IsFunction context seen) :
    ∀ member ∈ read.members, recordedAccess member = some context.access := by
  cases h with
  | failed => exact fun member hmem => absurd hmem List.not_mem_nil
  | read => exact List.forall_mem_singleton.mpr rfl

theorem named_access {name opening : Token} :
    ∀ member ∈ (context.named ending seen name opening tokens).members,
      recordedAccess member = some context.access := by
  rcases @named_isFunction ending tokens context seen name opening with hread | ⟨_, hnone⟩
  · exact hread.access
  · rw [hnone]
    exact fun member hmem => absurd hmem List.not_mem_nil

theorem operator_access :
    ∀ member ∈ (context.operator ending seen tokens).members,
      recordedAccess member = some context.access := operator_isFunction.access

theorem memberDeclaration_access :
    ∀ member ∈ (memberDeclaration context ending seen tokens).members,
      recordedAccess member = some context.access := by
  fun_induction memberDeclaration context ending seen tokens with
    grind [named_access, operator_access, MembersRead.failed, MembersRead.cons,
      MemberContext.field, recordedAccess]

theorem recordedAccess_annotate (block : AnnotationBlock) (member : Member) :
    recordedAccess (Member.annotate block member) = recordedAccess member := by
  cases member <;> rfl

-- A declaration that is not of a type gives fields and functions only.
theorem plainMembers_access :
    ∀ member ∈ (plainMembers context ending tokens).members,
      recordedAccess member = some context.access := by
  have hread := @memberDeclaration_access ending context .nothing tokens
  rw [plainMembers_eq_annotated, MembersRead.annotated]
  split
  · exact hread
  · split
    · intro member hmem
      obtain ⟨found, hfound, rfl⟩ := List.mem_map.mp hmem
      rw [recordedAccess_annotate]
      exact hread found hfound
    · exact hread

end Plain

section Steps

variable {mode : ErrorMode} {className : Option String} {access : Access} {tokens : List Token}

theorem typeMembers_access (entity : Entity) (names : List Token) :
    ∀ member ∈ typeMembers access entity names, ∀ recorded ∈ recordedAccess member,
      recorded = access := by
  intro member hmem recorded hrecorded
  rcases List.mem_cons.mp hmem with rfl | hmem
  · cases hrecorded
  · obtain ⟨name, _, rfl⟩ := List.mem_map.mp hmem
    exact (Option.some.inj hrecorded).symm

theorem ofRecorded_access {α : Type} {smaller bound : Nat} {read : Recorded α smaller}
    {give : α → List Member} (hle : smaller ≤ bound)
    (hgive : ∀ value, ∀ member ∈ give value, ∀ recorded ∈ recordedAccess member,
      recorded = access) :
    ∀ member ∈ (MemberStep.ofRecorded access ((read.map give).within hle)).members,
      ∀ recorded ∈ recordedAccess member, recorded = access := by
  unfold MemberStep.ofRecorded Recorded.within Recorded.map
  cases houtcome : read.outcome with
  | error error => simp [Except.map]
  | ok value => exact hgive value

theorem member_members_access (annotations : List AnnotationBlock) :
    ∀ found ∈ (member mode ending className access annotations tokens).members,
      ∀ recorded ∈ recordedAccess found, recorded = access := by
  cases tokens with
  | nil =>
      rw [member]
      exact fun member hmem => absurd hmem List.not_mem_nil
  | cons token rest =>
      rw [member_cons]
      cases memberForm (token :: rest) with
      | classType => exact ofRecorded_access _ fun read => typeMembers_access read.1 read.2
      | enumType =>
          exact ofRecorded_access _ fun read => typeMembers_access (.enumDecl read.1) read.2
      | template =>
          refine ofRecorded_access _ fun entity member hmem recorded hrecorded => ?_
          obtain ⟨other, _, rfl⟩ := List.mem_map.mp hmem
          cases hrecorded
      | plain =>
          intro found hmem recorded hrecorded
          rw [plainMembers_access found hmem] at hrecorded
          exact (Option.some.inj hrecorded).symm
      | _ => exact fun member hmem => absurd hmem List.not_mem_nil

-- Everything that one declaration gives has the access that was in force in front of it.
theorem memberStep_members_access :
    ∀ found ∈ (memberStep mode ending className access tokens).members,
      ∀ recorded ∈ recordedAccess found, recorded = access := by
  rw [memberStep]
  split
  · exact fun member hmem => absurd hmem List.not_mem_nil
  · next annotations rest _ =>
    change ∀ found ∈ (member mode ending className access annotations rest).members, _
    exact member_members_access annotations

end Steps

end Reflection.Header
