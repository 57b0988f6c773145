import Reflection.Declaration.Json
import Reflection.Proofs.Json.Records

namespace Reflection

open Json (Reading Record Fields WrittenFields writtenFields_nil writtenFields_cons)

-- Are the offsets numbers of 64 bits?
def Span.Fits (span : Span) : Prop :=
  span.start ≤ Json.maxNatural ∧ span.stop ≤ Json.maxNatural

instance (span : Span) : Decidable span.Fits := instDecidableAnd

def SpansFit (spans : List Span) : Prop := ∀ span ∈ spans, span.Fits

instance (spans : List Span) : Decidable (SpansFit spans) := List.decidableBAll Span.Fits spans

def EnumeratorDecl.spans (decl : EnumeratorDecl) : List Span :=
  decl.span :: decl.annotations.map (·.span)

def FieldDecl.spans (decl : FieldDecl) : List Span := decl.span :: decl.annotations.map (·.span)

def MethodDecl.spans (decl : MethodDecl) : List Span := decl.span :: decl.annotations.map (·.span)

def EnumDecl.spans (decl : EnumDecl) : List Span :=
  decl.span :: (decl.annotations.map (·.span) ++ decl.enumerators.flatMap EnumeratorDecl.spans)

-- Fields from which a record reads a value.
structure Spelling {α : Type} (record : Record α) (fields : Fields) (value : α) : Prop where
  read : record.read fields = .ok value
  names : (fields.map (·.1)).Nodup
  written : WrittenFields fields

theorem Spelling.ofJson {α : Type} {record : Record α} {fields : Fields} {value : α}
    (h : Spelling record fields value) {budget : Nat} (hbudget : 0 < budget) :
    record.ofJson budget (.ofFields fields) = .ok value :=
  Record.ofJson_ofFields h.read h.names h.written hbudget

theorem Spelling.ofFields {α : Type} {record : Record α} {fields : Fields} {value : α}
    (h : Spelling record fields value) :
    record.ofFields Json.skip (Json.spelled fields) = .ok value :=
  Record.ofFields_spelled h.read h.names fun field hmem => (h.written field hmem).skip

-- Fields that tell what an object is.
structure Tags (lead : Fields) : Prop where
  tags : ∀ name ∈ lead.map (·.1), name ∈ ["member", "entity"]
  names : (lead.map (·.1)).Nodup
  written : WrittenFields lead

namespace Tags

variable {lead fields : Fields}

theorem find?_append (h : Tags lead) {name : String} (hname : name ∉ ["member", "entity"])
    {found : String × Json} (hfind : fields.find? (·.1 == name) = some found) :
    (lead ++ fields).find? (·.1 == name) = some found := by
  have hnone : lead.find? (·.1 == name) = none := by
    rw [List.find?_eq_none]
    intro field hmem hfield
    exact hname (beq_iff_eq.mp hfield ▸ h.tags field.1 (List.mem_map_of_mem hmem))
  rw [List.find?_append, hnone, Option.none_or, hfind]

theorem read_field {α : Type} (h : Tags lead) {name : String} (hname : name ∉ ["member", "entity"])
    {absent : Reading α} {read : Json → Reading α} {json : Json} {value : α}
    (hfind : fields.find? (·.1 == name) = some (name, json)) (hread : read json = .ok value) :
    (Record.field name absent read).read (lead ++ fields) = .ok value :=
  Record.read_field (h.find?_append hname hfind) hread

theorem names_append (h : Tags lead) (hnames : (fields.map (·.1)).Nodup)
    (hothers : ∀ name ∈ fields.map (·.1), name ∉ ["member", "entity"]) :
    ((lead ++ fields).map (·.1)).Nodup := by
  rw [List.map_append, List.nodup_append]
  refine ⟨h.names, hnames, fun name hlead other hmem heq => ?_⟩
  exact hothers other hmem (heq ▸ h.tags name hlead)

theorem written_append (h : Tags lead) (hwritten : WrittenFields fields) :
    WrittenFields (lead ++ fields) := by
  intro field hmem
  obtain hmem | hmem := List.mem_append.mp hmem
  · exact h.written field hmem
  · exact hwritten field hmem

end Tags

namespace Json

theorem written_nameIn {α : Type} [DecidableEq α] (names : List (String × α)) (value : α) :
    (nameIn names value).Written := written_ofString _

theorem written_ofOption (name : Option String) : (ofOption ofString name).Written := by
  cases name with
  | none => exact .null
  | some name => exact written_ofString name

theorem asOption_ofString (name : Option String) :
    asOption asString (ofOption ofString name) = .ok name :=
  asOption_ofOption (fun value => ⟨fun h => (by cases h), asString_ofString value⟩) name

-- A list of objects, read with one container less for each of them.
theorem asList_objects {α : Type} {write : α → Fields} {read : Nat → Json → Reading α}
    {values : List α} {budget : Nat}
    (hdepth : (Json.array (values.map fun value => ofFields (write value))).depth ≤ budget)
    (h : ∀ value ∈ values, ∀ bound, (∀ field ∈ write value, field.2.depth ≤ bound) →
      read (bound + 1) (ofFields (write value)) = .ok value) :
    asList budget (read (budget - 1)) (.array (values.map fun value => ofFields (write value))) =
      .ok values := by
  obtain ⟨bound, rfl⟩ : ∃ bound, budget = bound + 1 :=
    Nat.exists_eq_add_one.mpr (Nat.lt_of_lt_of_le (depth_array_pos _) hdepth)
  refine asList_map (Nat.succ_pos bound) fun value hmem => ?_
  have hvalue := depth_array_le.mp hdepth _ (List.mem_map_of_mem hmem)
  obtain ⟨inner, rfl⟩ : ∃ inner, bound = inner + 1 :=
    Nat.exists_eq_add_one.mpr (Nat.lt_of_lt_of_le (depth_ofFields_pos _) hvalue)
  exact h value hmem inner (depth_ofFields_le.mp hvalue)

end Json

section Spans

variable {span : Span}

theorem Span.spelling (h : span.Fits) :
    Spelling Span.record [("start", .ofNat span.start), ("end", .ofNat span.stop)] span where
  read := Record.read_seq (Record.read_map _ (Record.read_field rfl (Json.asNatural_ofNat h.1)))
    (Record.read_field rfl (Json.asNatural_ofNat h.2))
  names := by simp
  written := writtenFields_cons (.natural h.1) (writtenFields_cons (.natural h.2) writtenFields_nil)

theorem Span.written_toJson (h : span.Fits) : span.toJson.Written :=
  .object (Span.spelling h).written

theorem read_span {fields : Fields}
    (hfind : fields.find? (·.1 == "span") = some ("span", span.toJson)) (h : span.Fits)
    {budget : Nat} (hdepth : ∀ field ∈ fields, field.2.depth ≤ budget) :
    (Record.span budget).read fields = .ok span := by
  have hle := hdepth _ (List.mem_of_find?_eq_some hfind)
  exact Record.read_field hfind
    ((Span.spelling h).ofJson (Nat.lt_of_lt_of_le (Json.depth_ofFields_pos _) hle))

end Spans

section Annotations

theorem AnnotationKind.asName_nameIn (kind : AnnotationKind) :
    Json.asName names (Json.nameIn names kind) = .ok kind := by
  cases kind <;> exact Json.asName_ofString rfl

def AnnotationBlock.toFields (block : AnnotationBlock) : Fields :=
  [("kind", .nameIn AnnotationKind.names block.kind), ("text", .ofString block.text),
    ("span", block.span.toJson)]

theorem AnnotationBlock.written_toFields {block : AnnotationBlock} (h : block.span.Fits) :
    WrittenFields block.toFields :=
  writtenFields_cons (Json.written_nameIn _ _) (writtenFields_cons (Json.written_ofString _)
    (writtenFields_cons (Span.written_toJson h) writtenFields_nil))

theorem AnnotationBlock.spelling {block : AnnotationBlock} (h : block.span.Fits) {budget : Nat}
    (hdepth : ∀ field ∈ block.toFields, field.2.depth ≤ budget) :
    Spelling (AnnotationBlock.record budget) block.toFields block where
  read := Record.read_seq (Record.read_seq (Record.read_map _
    (Record.read_field rfl (AnnotationKind.asName_nameIn block.kind)))
      (Record.read_field rfl (Json.asString_ofString block.text))) (read_span rfl h hdepth)
  names := by simp [AnnotationBlock.toFields]
  written := AnnotationBlock.written_toFields h

variable {annotations : List AnnotationBlock}

theorem written_annotationsJson (h : SpansFit (annotations.map (·.span))) :
    (annotationsJson annotations).Written :=
  Json.written_map fun block hmem =>
    .object (AnnotationBlock.written_toFields (h block.span (List.mem_map_of_mem hmem)))

theorem read_annotations {fields : Fields} (hfind : fields.find? (·.1 == "annotations") =
      some ("annotations", annotationsJson annotations))
    (h : SpansFit (annotations.map (·.span))) {budget : Nat}
    (hdepth : ∀ field ∈ fields, field.2.depth ≤ budget) :
    (Record.annotations budget).read fields = .ok annotations := by
  have hle := hdepth _ (List.mem_of_find?_eq_some hfind)
  refine Record.read_field hfind ?_
  exact @Json.asList_objects _ AnnotationBlock.toFields
    (fun bound => (AnnotationBlock.record (bound - 1)).ofJson bound) annotations budget hle
    fun block hmem bound hbound => (AnnotationBlock.spelling
      (h block.span (List.mem_map_of_mem hmem)) hbound).ofJson (Nat.succ_pos bound)

end Annotations

theorem Access.asName_nameIn (access : Access) :
    Json.asName names (Json.nameIn names access) = .ok access := by
  cases access <;> exact Json.asName_ofString rfl

theorem ClassKey.asName_nameIn (key : ClassKey) :
    Json.asName names (Json.nameIn names key) = .ok key := by
  cases key <;> exact Json.asName_ofString rfl

theorem MethodKind.asName_nameIn (kind : MethodKind) :
    Json.asName names (Json.nameIn names kind) = .ok kind := by
  cases kind <;> exact Json.asName_ofString rfl

namespace EnumeratorDecl

variable {decl : EnumeratorDecl}

def toFields (decl : EnumeratorDecl) : Fields :=
  [("name", .ofString decl.name), ("annotations", annotationsJson decl.annotations),
    ("span", decl.span.toJson)]

theorem written_toFields (h : SpansFit decl.spans) : WrittenFields decl.toFields := by
  obtain ⟨hspan, hannotations⟩ := List.forall_mem_cons.mp h
  exact writtenFields_cons (Json.written_ofString _) (writtenFields_cons
    (written_annotationsJson hannotations) (writtenFields_cons (Span.written_toJson hspan)
      writtenFields_nil))

theorem spelling (h : SpansFit decl.spans) {budget : Nat}
    (hdepth : ∀ field ∈ decl.toFields, field.2.depth ≤ budget) :
    Spelling (EnumeratorDecl.record budget) decl.toFields decl where
  read := Record.read_seq (Record.read_seq (Record.read_map _
    (Record.read_field rfl (Json.asString_ofString decl.name)))
      (read_annotations rfl (List.forall_mem_cons.mp h).2 hdepth))
      (read_span rfl (List.forall_mem_cons.mp h).1 hdepth)
  names := by simp [toFields]
  written := written_toFields h

end EnumeratorDecl

section Tagged

variable {lead : Fields} {budget : Nat}

namespace FieldDecl

variable {decl : FieldDecl}

theorem written_toFields (h : SpansFit decl.spans) : WrittenFields decl.toFields := by
  obtain ⟨hspan, hannotations⟩ := List.forall_mem_cons.mp h
  exact writtenFields_cons (Json.written_ofString _) (writtenFields_cons (.bool _)
    (writtenFields_cons (Json.written_nameIn _ _) (writtenFields_cons
      (written_annotationsJson hannotations) (writtenFields_cons (Span.written_toJson hspan)
        writtenFields_nil))))

theorem spelling (hlead : Tags lead) (h : SpansFit decl.spans)
    (hdepth : ∀ field ∈ lead ++ decl.toFields, field.2.depth ≤ budget) :
    Spelling (FieldDecl.record budget) (lead ++ decl.toFields) decl where
  read := by
    obtain ⟨hspan, hannotations⟩ := List.forall_mem_cons.mp h
    refine Record.read_seq (Record.read_seq (Record.read_seq (Record.read_seq (Record.read_map _
      ?_) ?_) ?_) ?_) ?_
    · exact hlead.read_field (by decide) rfl (Json.asString_ofString decl.name)
    · exact hlead.read_field (by decide) rfl rfl
    · exact hlead.read_field (by decide) rfl (Access.asName_nameIn decl.access)
    · exact read_annotations (hlead.find?_append (by decide) rfl) hannotations hdepth
    · exact read_span (hlead.find?_append (by decide) rfl) hspan hdepth
  names := hlead.names_append (by simp [toFields]) (by simp [toFields])
  written := hlead.written_append (written_toFields h)

end FieldDecl

namespace MethodDecl

variable {decl : MethodDecl}

theorem written_toFields (h : SpansFit decl.spans) : WrittenFields decl.toFields := by
  obtain ⟨hspan, hannotations⟩ := List.forall_mem_cons.mp h
  exact writtenFields_cons (Json.written_ofString _) (writtenFields_cons (Json.written_nameIn _ _)
    (writtenFields_cons (.bool _) (writtenFields_cons (Json.written_nameIn _ _)
      (writtenFields_cons (written_annotationsJson hannotations) (writtenFields_cons
        (Span.written_toJson hspan) writtenFields_nil)))))

theorem spelling (hlead : Tags lead) (h : SpansFit decl.spans)
    (hdepth : ∀ field ∈ lead ++ decl.toFields, field.2.depth ≤ budget) :
    Spelling (MethodDecl.record budget) (lead ++ decl.toFields) decl where
  read := by
    obtain ⟨hspan, hannotations⟩ := List.forall_mem_cons.mp h
    refine Record.read_seq (Record.read_seq (Record.read_seq (Record.read_seq (Record.read_seq
      (Record.read_map _ ?_) ?_) ?_) ?_) ?_) ?_
    · exact hlead.read_field (by decide) rfl (Json.asString_ofString decl.name)
    · exact hlead.read_field (by decide) rfl (MethodKind.asName_nameIn decl.kind)
    · exact hlead.read_field (by decide) rfl rfl
    · exact hlead.read_field (by decide) rfl (Access.asName_nameIn decl.access)
    · exact read_annotations (hlead.find?_append (by decide) rfl) hannotations hdepth
    · exact read_span (hlead.find?_append (by decide) rfl) hspan hdepth
  names := hlead.names_append (by simp [toFields]) (by simp [toFields])
  written := hlead.written_append (written_toFields h)

end MethodDecl

namespace EnumDecl

variable {decl : EnumDecl}

theorem spansFit_enumerator (h : SpansFit decl.spans) {enumerator : EnumeratorDecl}
    (hmem : enumerator ∈ decl.enumerators) : SpansFit enumerator.spans := fun span hspan =>
  (List.forall_mem_cons.mp h).2 span
    (List.mem_append_right _ (List.mem_flatMap.mpr ⟨enumerator, hmem, hspan⟩))

theorem spansFit_annotations (h : SpansFit decl.spans) :
    SpansFit (decl.annotations.map (·.span)) := fun span hspan =>
  (List.forall_mem_cons.mp h).2 span (List.mem_append_left _ hspan)

theorem written_toFields (h : SpansFit decl.spans) : WrittenFields decl.toFields := by
  have henumerators : (Json.array (decl.enumerators.map EnumeratorDecl.toJson)).Written :=
    Json.written_map fun enumerator hmem =>
      .object (EnumeratorDecl.written_toFields (spansFit_enumerator h hmem))
  exact writtenFields_cons (Json.written_ofOption _) (writtenFields_cons (.bool _)
    (writtenFields_cons (.bool _) (writtenFields_cons
      (written_annotationsJson (spansFit_annotations h)) (writtenFields_cons henumerators
        (writtenFields_cons (Span.written_toJson (List.forall_mem_cons.mp h).1)
          writtenFields_nil)))))

theorem spelling (hlead : Tags lead) (h : SpansFit decl.spans)
    (hdepth : ∀ field ∈ lead ++ decl.toFields, field.2.depth ≤ budget) :
    Spelling (EnumDecl.record budget) (lead ++ decl.toFields) decl where
  read := by
    refine Record.read_seq (Record.read_seq (Record.read_seq (Record.read_seq (Record.read_seq
      (Record.read_map _ ?_) ?_) ?_) ?_) ?_) ?_
    · exact hlead.read_field (by decide) rfl (Json.asOption_ofString decl.name)
    · exact hlead.read_field (by decide) rfl rfl
    · exact hlead.read_field (by decide) rfl rfl
    · exact read_annotations (hlead.find?_append (by decide) rfl) (spansFit_annotations h) hdepth
    · have hfind : (lead ++ decl.toFields).find? (·.1 == "enumerators") = some ("enumerators",
          .array (decl.enumerators.map EnumeratorDecl.toJson)) :=
        hlead.find?_append (by decide) rfl
      refine Record.read_field hfind ?_
      exact @Json.asList_objects _ EnumeratorDecl.toFields
        (fun bound => (EnumeratorDecl.record (bound - 1)).ofJson bound) decl.enumerators budget
        (hdepth _ (List.mem_of_find?_eq_some hfind)) fun enumerator hmem bound hbound =>
          (EnumeratorDecl.spelling (spansFit_enumerator h hmem) hbound).ofJson (Nat.succ_pos bound)
    · exact read_span (hlead.find?_append (by decide) rfl) (List.forall_mem_cons.mp h).1 hdepth
  names := hlead.names_append (by simp [toFields]) (by simp [toFields])
  written := hlead.written_append (written_toFields h)

end EnumDecl

end Tagged

end Reflection
