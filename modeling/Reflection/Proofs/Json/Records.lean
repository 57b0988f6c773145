import Reflection.Json.Record
import Reflection.Proofs.Json.Depth

namespace Reflection.Json

variable {α β : Type}

theorem asString_ofText (text : List Char) : asString (ofText text) = .ok (String.ofList text) :=
  textOf_escape text

theorem asString_ofString (text : String) : asString (ofString text) = .ok text := by
  rw [ofString, asString_ofText, String.ofList_toList]

theorem asOption_ofOption {write : α → Json} {read : Json → Reading α}
    (h : ∀ value, write value ≠ .null ∧ read (write value) = .ok value) (value : Option α) :
    asOption read (ofOption write value) = .ok value := by
  cases value with
  | none => rfl
  | some value =>
      rw [ofOption, asOption.eq_2 _ _ (h value).1, (h value).2]
      rfl

theorem asList_map {write : α → Json} {read : Json → Reading α} {values : List α} {budget : Nat}
    (hbudget : 0 < budget) (h : ∀ value ∈ values, read (write value) = .ok value) :
    asList budget read (.array (values.map write)) = .ok values := by
  rw [asList, asArray, if_neg (Nat.ne_of_gt hbudget)]
  induction values with
  | nil => rfl
  | cons value values ih =>
      have hmore := ih fun other hmem => h other (.tail value hmem)
      change ((values.map write).mapM read) = .ok values at hmore
      change ((value :: values).map write).mapM read = _
      rw [List.map_cons, List.mapM_cons, h value (.head values), hmore]
      rfl

-- The name in the table of a value stands for it.
theorem ofName_of_find {names : List (String × α)} {name : String} {value : α}
    (h : names.find? (·.1 == name) = some (name, value)) : ofName names name = .ok value := by
  rw [ofName, h]

theorem asName_ofString {names : List (String × α)} {name : String} {value : α}
    (h : names.find? (·.1 == name) = some (name, value)) :
    asName names (ofString name) = .ok value := by
  change (asString (ofString name)).bind (ofName names) = _
  rw [asString_ofString]
  exact ofName_of_find h

theorem asTag_ofString {names : List (String × α)} {name : String} {value : α}
    (h : names.find? (·.1 == name) = some (name, value)) (isBuffered : Bool) :
    asTag isBuffered names (ofString name) = .ok value := by
  have hread : asTag isBuffered names (ofString name) =
      (asString (ofString name)).bind (ofName names) := by
    cases isBuffered <;> rfl
  rw [hread, asString_ofString]
  exact ofName_of_find h

theorem text_spelled (name : String) : (Name.spelled (escape name.toList)).text = .ok name := by
  rw [Name.text, textOf_escape, String.ofList_toList]

namespace Record

theorem survey_spelled {names seen : List String} {others : Json → Reading Unit} {fields : Fields}
    (hnames : (fields.map (·.1)).Nodup) (hseen : ∀ field ∈ fields, field.1 ∉ seen)
    (hothers : ∀ field ∈ fields, others field.2 = .ok ()) :
    survey names others seen (spelled fields) = (fields, none) := by
  induction fields generalizing seen with
  | nil => rfl
  | cons field fields ih =>
      rw [List.map_cons, List.nodup_cons] at hnames
      have haccept : acceptName names others seen (.spelled (escape field.1.toList), field.2) =
          .ok field.1 := by
        rw [acceptName, text_spelled]
        have hfresh : seen.contains field.1 = false := by
          simpa using hseen field (.head fields)
        change (if names.contains field.1 then
          if seen.contains field.1 then .error .mismatch else .ok field.1
          else do others field.2; return field.1) = _
        rw [hfresh, hothers field (.head fields)]
        split <;> rfl
      have hmore := @ih (field.1 :: seen) hnames.2 ?_
        fun other hmem => hothers other (.tail field hmem)
      · rw [spelled, List.map_cons, survey, haccept]
        dsimp only
        rw [← spelled, hmore]
      · intro other hmem hother
        obtain heq | hother := List.mem_cons.mp hother
        · exact hnames.1 (heq ▸ List.mem_map_of_mem hmem)
        · exact hseen other (.tail field hmem) hother

theorem ofFields_spelled {record : Record α} {others : Json → Reading Unit} {fields : Fields}
    {value : α} (hread : record.read fields = .ok value) (hnames : (fields.map (·.1)).Nodup)
    (hothers : ∀ field ∈ fields, others field.2 = .ok ()) :
    record.ofFields others (spelled fields) = .ok value := by
  rw [ofFields, survey_spelled hnames (fun _ _ => List.not_mem_nil) hothers]
  dsimp only
  rw [hread]

theorem ofJson_ofFields {record : Record α} {fields : Fields} {value : α} {budget : Nat}
    (hread : record.read fields = .ok value) (hnames : (fields.map (·.1)).Nodup)
    (hwritten : ∀ field ∈ fields, field.2.Written) (hbudget : 0 < budget) :
    record.ofJson budget (.ofFields fields) = .ok value := by
  rw [ofJson, Json.ofFields, asObject, if_neg (Nat.ne_of_gt hbudget)]
  exact ofFields_spelled hread hnames fun field hmem => (hwritten field hmem).skip

theorem read_map {record : Record α} {fields : Fields} {value : α} (f : α → β)
    (h : record.read fields = .ok value) : (f <$> record).read fields = .ok (f value) := by
  change (record.read fields).map f = _
  rw [h]
  rfl

theorem read_seq {first : Record (α → β)} {second : Record α} {fields : Fields} {f : α → β}
    {value : α} (hf : first.read fields = .ok f) (hvalue : second.read fields = .ok value) :
    (first <*> second).read fields = .ok (f value) := by
  change (seq first second).read fields = _
  simp only [seq, hf, hvalue]

theorem read_field {name : String} {absent : Reading α} {read : Json → Reading α} {fields : Fields}
    {json : Json} {value : α} (hfind : fields.find? (·.1 == name) = some (name, json))
    (hread : read json = .ok value) : (field name absent read).read fields = .ok value := by
  rw [← List.zipIdx_map_fst 0 fields, List.find?_map] at hfind
  obtain ⟨⟨_, place⟩, hplace, rfl⟩ := Option.map_eq_some_iff.mp hfind
  have hfound : fields.zipIdx.find? (·.1.1 == name) = some ((name, json), place) := hplace
  simp only [field, hfound, hread]
  rfl

theorem read_absent {name : String} {read : Json → Reading α} {fields : Fields} {value : α}
    (hfind : fields.find? (·.1 == name) = none) :
    (optional name value read).read fields = .ok value := by
  rw [← List.zipIdx_map_fst 0 fields, List.find?_map, Option.map_eq_none_iff] at hfind
  have hnone : fields.zipIdx.find? (·.1.1 == name) = none := hfind
  simp only [optional, field, hnone]
  rfl

end Record

end Reflection.Json
