import Reflection.Proofs.Json.Printed

namespace Reflection.Json

theorem written_ofString (text : String) : (ofString text).Written := .text text.toList

theorem written_map {α : Type} {write : α → Json} {values : List α}
    (h : ∀ value ∈ values, (write value).Written) : (Json.array (values.map write)).Written := by
  refine .array fun json hmem => ?_
  obtain ⟨value, hvalue, rfl⟩ := List.mem_map.mp hmem
  exact h value hvalue

-- Fields that plain data is written as.
def WrittenFields (fields : List (String × Json)) : Prop := ∀ field ∈ fields, field.2.Written

theorem writtenFields_nil : WrittenFields [] := nofun

theorem writtenFields_cons {name : String} {json : Json} {fields : List (String × Json)}
    (h : json.Written) (hmore : WrittenFields fields) : WrittenFields ((name, json) :: fields) :=
  List.forall_mem_cons.mpr ⟨h, hmore⟩

mutual

-- How many containers stand in one another.
def depth : Json → Nat
  | .array items => depthOfItems items + 1
  | .object fields => depthOfFields fields + 1
  | _ => 0

def depthOfItems : List Json → Nat
  | [] => 0
  | item :: items => max item.depth (depthOfItems items)

def depthOfFields : List (Name × Json) → Nat
  | [] => 0
  | (_, value) :: fields => max value.depth (depthOfFields fields)

end

theorem depth_array_le {items : List Json} {bound : Nat} :
    (Json.array items).depth ≤ bound + 1 ↔ ∀ item ∈ items, item.depth ≤ bound := by
  rw [depth, Nat.add_le_add_iff_right]
  induction items with
  | nil => simp [depthOfItems]
  | cons item items ih => rw [depthOfItems, Nat.max_le, ih, List.forall_mem_cons]

theorem depth_ofFields_le {fields : List (String × Json)} {bound : Nat} :
    (ofFields fields).depth ≤ bound + 1 ↔ ∀ field ∈ fields, field.2.depth ≤ bound := by
  change (Json.object (spelled fields)).depth ≤ bound + 1 ↔ _
  rw [depth, Nat.add_le_add_iff_right]
  induction fields with
  | nil => simp [spelled, depthOfFields]
  | cons field fields ih =>
      rw [spelled, List.map_cons, depthOfFields, Nat.max_le, ← spelled, ih, List.forall_mem_cons]

theorem depth_array_pos (items : List Json) : 0 < (Json.array items).depth := Nat.succ_pos _

theorem depth_ofFields_pos (fields : List (String × Json)) : 0 < (ofFields fields).depth :=
  Nat.succ_pos _

theorem flawOfItems?_eq_none {items : List Json} (h : ∀ item ∈ items, item.flaw? = none) :
    flawOfItems? items = none := by
  induction items with
  | nil => rfl
  | cons item items ih =>
      rw [flawOfItems?, h item (.head items), ih fun other hmem => h other (.tail item hmem)]
      rfl

theorem flawOfFields?_eq_none {fields : List (String × Json)}
    (h : ∀ field ∈ fields, field.2.flaw? = none) : flawOfFields? (spelled fields) = none := by
  induction fields with
  | nil => rfl
  | cons field fields ih =>
      have hmore := ih fun other hmem => h other (.tail field hmem)
      have hname (flaw : Flaw) : (Name.spelled (escape field.1.toList)) ≠ .flawed flaw := by simp
      rw [spelled] at hmore ⊢
      rw [List.map_cons, flawOfFields?.eq_3 _ _ _ hname, h field (.head fields), hmore]
      rfl

theorem Written.flaw? {json : Json} (h : Written json) : json.flaw? = none := by
  induction h with
  | null | bool | natural | text => rfl
  | array _ ih => exact flawOfItems?_eq_none ih
  | object _ ih => exact flawOfFields?_eq_none ih

theorem Written.skip {json : Json} (h : Written json) : json.skip = .ok () := by
  rw [Json.skip, h.flaw?]

theorem textOf_escape (text : List Char) : textOf (escape text) = .ok (String.ofList text) := by
  rw [textOf, textOf?_escape]

theorem readableItems_ok {items : List Json} {budget : Nat}
    (h : ∀ item ∈ items, readable budget item = .ok ()) :
    readableItems budget items = .ok () := by
  induction items with
  | nil => rfl
  | cons item items ih =>
      rw [readableItems, h item (.head items)]
      exact ih fun other hmem => h other (.tail item hmem)

theorem readableFields_ok {fields : List (String × Json)} {budget : Nat}
    (h : ∀ field ∈ fields, readable budget field.2 = .ok ()) :
    readableFields budget (spelled fields) = .ok () := by
  induction fields with
  | nil => rfl
  | cons field fields ih =>
      rw [spelled, List.map_cons, readableFields, Name.text, textOf_escape, h field (.head fields)]
      exact ih fun other hmem => h other (.tail field hmem)

theorem Written.readable {json : Json} (h : Written json) {budget : Nat}
    (hdepth : json.depth ≤ budget) : json.readable budget = .ok () := by
  induction h generalizing budget with
  | null | bool => rfl
  | natural hle => exact if_pos (isInRange_toDigits hle)
  | text text =>
      change (textOf (escape text)).map _ = _
      rw [textOf_escape]
      rfl
  | @array items _ ih =>
      obtain ⟨bound, rfl⟩ : ∃ bound, budget = bound + 1 :=
        Nat.exists_eq_add_one.mpr (Nat.lt_of_lt_of_le (depth_array_pos items) hdepth)
      rw [Json.readable, if_neg (Nat.succ_ne_zero bound)]
      exact readableItems_ok fun item hmem => ih item hmem (depth_array_le.mp hdepth item hmem)
  | @object fields _ ih =>
      obtain ⟨bound, rfl⟩ : ∃ bound, budget = bound + 1 :=
        Nat.exists_eq_add_one.mpr (Nat.lt_of_lt_of_le (depth_ofFields_pos fields) hdepth)
      rw [ofFields, Json.readable, if_neg (Nat.succ_ne_zero bound)]
      exact readableFields_ok fun field hmem =>
        ih field hmem (depth_ofFields_le.mp hdepth field hmem)

end Reflection.Json
