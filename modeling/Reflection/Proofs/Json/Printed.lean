import Reflection.Proofs.Json.Numbers
import Reflection.Proofs.Json.Strings

namespace Reflection.Json

variable {α β : Type} {bound larger : Nat} {layout : Layout} {depth : Nat}

-- What plain data is written as.
inductive Written : Json → Prop where
  | null : Written .null
  | bool (value : Bool) : Written (.bool value)
  | natural {value : Nat} (h : value ≤ maxNatural) : Written (.ofNat value)
  | text (text : List Char) : Written (.ofText text)
  | array {items : List Json} (h : ∀ item ∈ items, Written item) : Written (.array items)
  | object {fields : List (String × Json)} (h : ∀ field ∈ fields, Written field.2) :
      Written (.ofFields fields)

theorem Takes.map {found : Except Fault (Part α bound)} {value : α} {rest : List Char}
    (h : Takes found value rest) (f : α → β) : Takes (found.map (Part.map f)) (f value) rest := by
  obtain ⟨hrest, rfl⟩ := h
  exact ⟨hrest, rfl⟩

theorem takes_word (expected rest : List Char) (value : Json) :
    Takes (word expected value (expected ++ rest)) value rest := by
  induction expected with
  | nil => exact ⟨_, rfl⟩
  | cons c expected ih =>
      obtain ⟨h, hword⟩ := ih
      simp only [List.cons_append]
      rw [word, if_pos rfl, hword]
      exact ⟨Nat.lt_succ_of_lt h, rfl⟩

namespace Stretch

-- All of the part is found, and `rest` is left.
def Takes (stretch : Stretch α bound) (value : α) (rest : List Char) : Prop :=
  ∃ h, stretch = ⟨value, some ⟨rest, h⟩⟩

variable {stretch : Stretch α bound} {value : α} {rest : List Char}

theorem Takes.map (h : stretch.Takes value rest) (f : α → β) :
    (stretch.map f).Takes (f value) rest := by
  obtain ⟨hrest, rfl⟩ := h
  exact ⟨hrest, rfl⟩

theorem Takes.within (h : stretch.Takes value rest) (hle : bound ≤ larger) :
    (stretch.within hle).Takes value rest := by
  obtain ⟨hrest, rfl⟩ := h
  exact ⟨Nat.lt_of_lt_of_le hrest hle, rfl⟩

theorem takes_ofPart {found : Except Fault (Part Json bound)} {json : Json}
    (h : Json.Takes found json rest) (flaw : Fault → Flaw) :
    (ofPart flaw found).Takes json rest := by
  obtain ⟨hrest, rfl⟩ := h
  exact ⟨hrest, rfl⟩

-- Space in front of a part is passed over by all functions that say so for one character.
theorem takes_spaces {find : (text : List Char) → Stretch α text.length}
    (hfind : ∀ c text, isSpace c = true → find (c :: text) = (find text).within (Nat.le_succ _))
    {spaces text : List Char} (hspaces : ∀ c ∈ spaces, isSpace c = true)
    (h : (find text).Takes value rest) : (find (spaces ++ text)).Takes value rest := by
  induction spaces with
  | nil => exact h
  | cons c spaces ih =>
      simp only [List.cons_append]
      rw [hfind c _ (hspaces c (.head spaces))]
      exact (ih fun d hmem => hspaces d (.tail c hmem)).within _

end Stretch

theorem isSpace_lineBreak (layout : Layout) (depth : Nat) :
    ∀ c ∈ layout.lineBreak depth, isSpace c = true := by
  intro c hmem
  cases layout with
  | compact => cases hmem
  | indented =>
      obtain rfl | hmem := List.mem_cons.mp hmem
      · rfl
      · rw [List.eq_of_mem_replicate hmem]
        rfl

theorem delimited_cons {c : Char} (h : c ∈ ",]\x7d \n\t\r".toList) (rest : List Char) :
    Delimited (c :: rest) := by
  intro d hhead
  rwa [← Option.some.inj hhead]

-- The text behind an item or a field: what follows it, each behind a comma.
def separated (text : α → List Char) (others : List α) : List Char :=
  others.flatMap fun other => ',' :: text other

theorem separated_cons (text : α → List Char) (other : α) (others : List α) :
    separated text (other :: others) = ',' :: (text other ++ separated text others) := by
  rw [separated, List.flatMap_cons, List.cons_append, separated]

theorem delimited_separated (text : α → List Char) (others : List α) (layout : Layout)
    (depth : Nat) {c : Char} (h : c ∈ ",]\x7d \n\t\r".toList) (rest : List Char) :
    Delimited (separated text others ++ (layout.lineBreak depth ++ c :: rest)) := by
  cases others with
  | nil =>
      cases layout with
      | compact => exact delimited_cons h rest
      | indented => exact delimited_cons (by decide) _
  | cons other others => exact delimited_cons (by decide) _

theorem value_space {c : Char} (text : List Char) (h : isSpace c = true) :
    value (c :: text) = (value text).within (Nat.le_succ _) := by
  rw [value.eq_def]
  dsimp only
  rw [if_pos h]

theorem firstItem_space {c : Char} (text : List Char) (h : isSpace c = true) :
    firstItem (c :: text) = (firstItem text).within (Nat.le_succ _) := by
  rw [firstItem, if_pos h]

theorem moreItems_space {c : Char} (text : List Char) (h : isSpace c = true) :
    moreItems (c :: text) = (moreItems text).within (Nat.le_succ _) := by
  rw [moreItems, if_pos h]

theorem firstField_space {c : Char} (text : List Char) (h : isSpace c = true) :
    firstField (c :: text) = (firstField text).within (Nat.le_succ _) := by
  rw [firstField, if_pos h]

theorem moreFields_space {c : Char} (text : List Char) (h : isSpace c = true) :
    moreFields (c :: text) = (moreFields text).within (Nat.le_succ _) := by
  rw [moreFields, if_pos h]

section Items

def itemText (layout : Layout) (depth : Nat) (item : Json) : List Char :=
  layout.lineBreak depth ++ print layout depth item

theorem printItems_cons (item : Json) (items : List Json) :
    printItems layout depth (item :: items) =
      itemText layout depth item ++ separated (itemText layout depth) items := by
  induction items generalizing item with
  | nil => simp [printItems, itemText, separated]
  | cons other items ih =>
      rw [printItems.eq_3 _ _ _ _ (by simp), ih, separated_cons]
      rfl

theorem takes_items {text after rest : List Char} {item : Json} {items : List Json}
    (hitem : (value text).Takes item after) (hmore : (moreItems after).Takes items rest) :
    (Json.items text).Takes (item :: items) rest := by
  obtain ⟨h, hvalue⟩ := hitem
  rw [Json.items, hvalue]
  exact (hmore.map _).within _

theorem takes_moreItems {items : List Json}
    (hitems : ∀ item ∈ items, ∀ rest, Delimited rest →
      (value (print layout depth item ++ rest)).Takes item rest) (outer : Nat)
    (rest : List Char) :
    (moreItems (separated (itemText layout depth) items ++
      (layout.lineBreak outer ++ ']' :: rest))).Takes items rest := by
  induction items with
  | nil =>
      change (moreItems (layout.lineBreak outer ++ ']' :: rest)).Takes [] rest
      refine Stretch.takes_spaces (fun _ => moreItems_space) (isSpace_lineBreak layout outer) ?_
      rw [moreItems, if_neg (by decide), if_pos rfl]
      exact ⟨_, rfl⟩
  | cons item items ih =>
      have hmore := ih fun other hmem => hitems other (.tail item hmem)
      have hitem := hitems item (.head items) _
        (delimited_separated (itemText layout depth) items layout outer (c := ']') (by decide) rest)
      rw [separated_cons, List.cons_append, itemText, List.append_assoc, List.append_assoc,
        moreItems, if_neg (by decide), if_neg (by decide), if_pos rfl]
      exact (takes_items (Stretch.takes_spaces (fun _ => value_space)
        (isSpace_lineBreak layout depth) hitem) hmore).within _

theorem takes_firstItem {c : Char} {text rest spaces : List Char} {items : List Json}
    (hspaces : ∀ c ∈ spaces, isSpace c = true) (hc : isSpace c = false ∧ c ≠ ']')
    (h : (Json.items (c :: text)).Takes items rest) :
    (firstItem (spaces ++ c :: text)).Takes items rest := by
  refine Stretch.takes_spaces (fun _ => firstItem_space) hspaces ?_
  rw [firstItem, if_neg (by simp [hc.1]), if_neg hc.2]
  exact h

end Items

section Fields

-- Fields with plain names.
def spelled (fields : List (String × Json)) : List (Name × Json) :=
  fields.map fun field => (.spelled (escape field.1.toList), field.2)

def printField (layout : Layout) (depth : Nat) (field : Name × Json) : List Char :=
  field.1.print ++ (layout.colon ++ print layout depth field.2)

def fieldText (layout : Layout) (depth : Nat) (field : Name × Json) : List Char :=
  layout.lineBreak depth ++ printField layout depth field

theorem printFields_cons (field : Name × Json) (fields : List (Name × Json)) :
    printFields layout depth (field :: fields) =
      fieldText layout depth field ++ separated (fieldText layout depth) fields := by
  induction fields generalizing field with
  | nil => simp [printFields, fieldText, printField, separated]
  | cons other fields ih =>
      rw [printFields.eq_3 _ _ _ _ _ (by simp), ih, separated_cons]
      simp [fieldText, printField]

theorem takes_fields {text between after rest : List Char} {name : Name} {json : Json}
    {fields : List (Name × Json)} (hname : (fieldName (skipSpace text)).Takes name between)
    (hvalue : (fieldValue between).Takes json after)
    (hmore : (moreFields after).Takes fields rest) :
    (Json.fields text).Takes ((name, json) :: fields) rest := by
  obtain ⟨_, hname⟩ := hname
  obtain ⟨_, hvalue⟩ := hvalue
  rw [Json.fields, hname]
  dsimp only
  rw [hvalue]
  exact (hmore.map _).within _

theorem skipSpace_append {spaces : List Char} (hspaces : ∀ c ∈ spaces, isSpace c = true)
    {c : Char} (hc : isSpace c = false) (text : List Char) :
    skipSpace (spaces ++ c :: text) = c :: text := by
  rw [skipSpace, List.dropWhile_append_of_pos hspaces, List.dropWhile_cons_of_neg (by simp [hc])]

theorem takes_fieldName (name rest : List Char) :
    (fieldName ('"' :: (escape name ++ '"' :: rest))).Takes (.spelled (escape name)) rest := by
  obtain ⟨_, hbody⟩ := stringBody_escape name rest
  rw [fieldName, hbody]
  exact ⟨_, rfl⟩

theorem takes_fieldValue {json : Json} {text rest : List Char}
    (h : (value text).Takes json rest) (layout : Layout) :
    (fieldValue (layout.colon ++ text)).Takes json rest := by
  cases layout with
  | compact =>
      rw [Layout.colon, List.singleton_append, fieldValue, if_neg (by decide), if_pos rfl]
      exact h.within _
  | indented =>
      rw [Layout.colon, List.cons_append, List.singleton_append, fieldValue, if_neg (by decide),
        if_pos rfl, value_space _ (by decide)]
      exact (h.within _).within _

-- A field with a plain name, and the fields after it.
theorem takes_printField {field : String × Json} {after rest spaces : List Char}
    {fields : List (Name × Json)} (hspaces : ∀ c ∈ spaces, isSpace c = true)
    (hvalue : (value (print layout depth field.2 ++ after)).Takes field.2 after)
    (hmore : (moreFields after).Takes fields rest) :
    (Json.fields (spaces ++ (printField layout depth (.spelled (escape field.1.toList), field.2) ++
      after))).Takes ((.spelled (escape field.1.toList), field.2) :: fields) rest := by
  refine takes_fields ?_ (takes_fieldValue hvalue layout) hmore
  have htext : spaces ++ (printField layout depth (.spelled (escape field.1.toList), field.2) ++
      after) = spaces ++ '"' :: (escape field.1.toList ++ '"' ::
        (layout.colon ++ (print layout depth field.2 ++ after))) := by
    simp [printField, Name.print, quoted]
  rw [htext, skipSpace_append hspaces (by decide)]
  exact takes_fieldName _ _

theorem takes_moreFields {fields : List (String × Json)}
    (hfields : ∀ field ∈ fields, ∀ rest, Delimited rest →
      (value (print layout depth field.2 ++ rest)).Takes field.2 rest) (outer : Nat)
    (rest : List Char) :
    (moreFields (separated (fieldText layout depth) (spelled fields) ++
      (layout.lineBreak outer ++ '}' :: rest))).Takes (spelled fields) rest := by
  induction fields with
  | nil =>
      change (moreFields (layout.lineBreak outer ++ '}' :: rest)).Takes [] rest
      refine Stretch.takes_spaces (fun _ => moreFields_space) (isSpace_lineBreak layout outer) ?_
      rw [moreFields, if_neg (by decide), if_pos rfl]
      exact ⟨_, rfl⟩
  | cons field fields ih =>
      have hmore := ih fun other hmem => hfields other (.tail field hmem)
      have hfield := hfields field (.head fields) _
        (delimited_separated (fieldText layout depth) (spelled fields) layout outer (c := '}')
          (by decide) rest)
      rw [spelled, List.map_cons, separated_cons, List.cons_append, fieldText, List.append_assoc,
        List.append_assoc, moreFields, if_neg (by decide), if_neg (by decide), if_pos rfl]
      exact (takes_printField (isSpace_lineBreak layout depth) hfield hmore).within _

theorem takes_firstField {text rest spaces : List Char} {fields : List (Name × Json)}
    (hspaces : ∀ c ∈ spaces, isSpace c = true)
    (h : (Json.fields ('"' :: text)).Takes fields rest) :
    (firstField (spaces ++ '"' :: text)).Takes fields rest := by
  refine Stretch.takes_spaces (fun _ => firstField_space) hspaces ?_
  rw [firstField, if_neg (by decide), if_neg (by decide)]
  exact h

end Fields

theorem isSpace_digit {c : Char} (hc : c.isDigit = true) : isSpace c = false := by
  by_contra hspace
  simp only [isSpace, Bool.not_eq_false, Bool.or_eq_true, decide_eq_true_eq] at hspace
  obtain ((rfl | rfl) | rfl) | rfl := hspace <;> cases hc

theorem value_digit {c : Char} (hc : c.isDigit = true) (text : List Char) :
    value (c :: text) = numberValue [] (c :: text) := by
  have hne {d : Char} (hd : d.isDigit = false) : c ≠ d := fun h => by
    rw [h, hd] at hc
    cases hc
  rw [value.eq_9 _ _ (hne (by decide)) (hne (by decide)) (hne (by decide)) (hne (by decide))
    (hne (by decide)) (hne (by decide)) (hne (by decide)), if_neg (by simp [isSpace_digit hc]),
    if_pos hc]

theorem takes_number (number : Nat) {rest : List Char} (hrest : Delimited rest) :
    (value (Nat.toDigits 10 number ++ rest)).Takes (.ofNat number) rest := by
  have hunsigned := takes_unsigned number hrest
  obtain ⟨c, more, hdigits⟩ := List.exists_cons_of_ne_nil (@Nat.toDigits_ne_nil number 10)
  have hc : c.isDigit = true := @isDigit_toDigits number c (hdigits ▸ .head more)
  have hnumber := (Stretch.takes_ofPart (hunsigned.map fun digits => .number ([] ++ digits))
    fun fault => ⟨fault, .invalid⟩)
  rw [hdigits, List.cons_append] at hnumber ⊢
  rw [value_digit hc, ofNat, hdigits]
  exact hnumber

theorem takes_string (text rest : List Char) :
    (value (quoted (escape text) ++ rest)).Takes (.ofText text) rest := by
  have htext : quoted (escape text) ++ rest = '"' :: (escape text ++ '"' :: rest) := by
    simp [quoted]
  obtain ⟨_, hbody⟩ := stringBody_escape text rest
  rw [htext, value, if_neg (by decide), stringValue, hbody]
  exact Stretch.Takes.within ⟨_, rfl⟩ _

-- A printed value starts with a character that is neither space nor a closing bracket.
theorem head_print {json : Json} (h : Written json) (layout : Layout) (depth : Nat) :
    ∃ c more, print layout depth json = c :: more ∧ isSpace c = false ∧ c ≠ ']' := by
  cases h with
  | null => exact ⟨_, _, rfl, by decide, by decide⟩
  | bool value => cases value <;> exact ⟨_, _, rfl, by decide, by decide⟩
  | @natural number =>
      obtain ⟨c, more, hdigits⟩ := List.exists_cons_of_ne_nil (@Nat.toDigits_ne_nil number 10)
      have hc : c.isDigit = true := @isDigit_toDigits number c (hdigits ▸ .head more)
      refine ⟨c, more, hdigits, isSpace_digit hc, fun hbracket => ?_⟩
      rw [hbracket] at hc
      cases hc
  | text text => exact ⟨_, _, rfl, by decide, by decide⟩
  | @array items => cases items <;> exact ⟨_, _, rfl, by decide, by decide⟩
  | @object fields => cases fields <;> exact ⟨_, _, rfl, by decide, by decide⟩

section Brackets

variable {rest : List Char}

theorem print_array (item : Json) (items : List Json) (rest : List Char) :
    print layout depth (.array (item :: items)) ++ rest =
      '[' :: (layout.lineBreak (depth + 1) ++ (print layout (depth + 1) item ++
        (separated (itemText layout (depth + 1)) items ++
          (layout.lineBreak depth ++ ']' :: rest)))) := by
  have hprint : print layout depth (.array (item :: items)) =
      '[' :: printItems layout (depth + 1) (item :: items) ++ layout.lineBreak depth ++ [']'] := rfl
  rw [hprint, printItems_cons, itemText]
  simp only [List.cons_append, List.append_assoc, List.nil_append]

theorem print_object (field : String × Json) (fields : List (String × Json)) (rest : List Char) :
    print layout depth (.ofFields (field :: fields)) ++ rest =
      '{' :: (layout.lineBreak (depth + 1) ++ (printField layout (depth + 1)
        (.spelled (escape field.1.toList), field.2) ++
          (separated (fieldText layout (depth + 1)) (spelled fields) ++
            (layout.lineBreak depth ++ '}' :: rest)))) := by
  have hprint : print layout depth (.ofFields (field :: fields)) =
      '{' :: printFields layout (depth + 1) ((.spelled (escape field.1.toList), field.2) ::
        spelled fields) ++ layout.lineBreak depth ++ ['}'] := rfl
  rw [hprint, printFields_cons, fieldText]
  simp only [List.cons_append, List.append_assoc, List.nil_append]

theorem takes_array {items : List Json} (hwritten : ∀ item ∈ items, Written item)
    (hitems : ∀ item ∈ items, ∀ rest, Delimited rest →
      (value (print layout (depth + 1) item ++ rest)).Takes item rest) :
    (value (print layout depth (.array items) ++ rest)).Takes (.array items) rest := by
  cases items with
  | nil =>
      change (value ('[' :: ']' :: rest)).Takes (.array []) rest
      rw [value, if_neg (by decide), firstItem, if_neg (by decide), if_pos rfl]
      exact ⟨_, rfl⟩
  | cons item items =>
      have hmore := takes_moreItems (fun other hmem => hitems other (.tail item hmem)) depth rest
      have hitem := hitems item (.head items) _ (delimited_separated (c := ']')
        (itemText layout (depth + 1)) items layout depth (by decide) rest)
      have hall := takes_items hitem hmore
      obtain ⟨c, more, hprint, hc⟩ := head_print (hwritten item (.head items)) layout (depth + 1)
      rw [hprint, List.cons_append] at hall
      have hfirst := takes_firstItem (isSpace_lineBreak layout (depth + 1)) hc hall
      rw [print_array, hprint, List.cons_append, value, if_neg (by decide)]
      exact (hfirst.map _).within _

theorem takes_object {fields : List (String × Json)}
    (hfields : ∀ field ∈ fields, ∀ rest, Delimited rest →
      (value (print layout (depth + 1) field.2 ++ rest)).Takes field.2 rest) :
    (value (print layout depth (.ofFields fields) ++ rest)).Takes (.ofFields fields) rest := by
  cases fields with
  | nil =>
      change (value ('{' :: '}' :: rest)).Takes (.object []) rest
      rw [value, if_neg (by decide), firstField, if_neg (by decide), if_pos rfl]
      exact ⟨_, rfl⟩
  | cons field fields =>
      have hmore := takes_moreFields (fun other hmem => hfields other (.tail field hmem)) depth rest
      have hfield := hfields field (.head fields) _ (delimited_separated (c := '}')
        (fieldText layout (depth + 1)) (spelled fields) layout depth (by decide) rest)
      have hall := @takes_printField layout (depth + 1) field _ rest [] _
        (fun _ hmem => absurd hmem List.not_mem_nil) hfield hmore
      have hfirst := takes_firstField (isSpace_lineBreak layout (depth + 1)) hall
      rw [print_object, value, if_neg (by decide)]
      exact (hfirst.map _).within _

end Brackets

theorem takes_print {json : Json} (h : Written json) (layout : Layout) (depth : Nat)
    {rest : List Char} (hrest : Delimited rest) :
    (value (print layout depth json ++ rest)).Takes json rest := by
  induction h generalizing depth rest with
  | null =>
      change (value ('n' :: ("ull".toList ++ rest))).Takes .null rest
      rw [value, if_neg (by decide)]
      exact Stretch.takes_ofPart (takes_word _ rest .null) _
  | bool value =>
      cases value with
      | true =>
          change (Json.value ('t' :: ("rue".toList ++ rest))).Takes (.bool true) rest
          rw [Json.value, if_neg (by decide)]
          exact Stretch.takes_ofPart (takes_word _ rest (.bool true)) _
      | false =>
          change (Json.value ('f' :: ("alse".toList ++ rest))).Takes (.bool false) rest
          rw [Json.value, if_neg (by decide)]
          exact Stretch.takes_ofPart (takes_word _ rest (.bool false)) _
  | natural hle => exact takes_number _ hrest
  | text text => exact takes_string text rest
  | array hitems ih =>
      exact takes_array hitems fun item hmem rest hrest => ih item hmem (depth + 1) hrest
  | object hfields ih =>
      exact takes_object fun field hmem rest hrest => ih field hmem (depth + 1) hrest

theorem parse_print {json : Json} (h : Written json) (layout : Layout) {spaces : List Char}
    (hspaces : ∀ c ∈ spaces, isSpace c = true) :
    parse (json.toText layout ++ spaces) = ⟨json, false⟩ := by
  have hrest : Delimited spaces := by
    intro c hhead
    have hspace := hspaces c (List.mem_of_mem_head? hhead)
    simp only [isSpace, Bool.or_eq_true, decide_eq_true_eq] at hspace
    obtain ((rfl | rfl) | rfl) | rfl := hspace <;> decide
  obtain ⟨_, hvalue⟩ := takes_print h layout 0 hrest
  rw [parse, toText, hvalue]
  have hskip : skipSpace spaces = [] := List.dropWhile_eq_nil_iff.mpr hspaces
  simp [hskip]

theorem read_print {json : Json} (h : Written json) (layout : Layout) {spaces : List Char}
    (hspaces : ∀ c ∈ spaces, isSpace c = true) (reader : Json → Except Fault α) :
    read reader (json.toText layout ++ spaces) = reader json := by
  rw [read, parse_print h layout hspaces]
  cases hread : reader json <;> rfl

end Reflection.Json
