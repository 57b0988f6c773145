import Mathlib.Data.List.Basic
import Reflection.Proofs.Declaration.Records
import Reflection.Proofs.Generation.Runs
import Reflection.Settings.Database

namespace Reflection

namespace Database

open Json (Record)

variable {store : Store} {wanted : Path} {entries : List Entry} {entry : Entry}

namespace Entry

-- The entry names the file, or both exist and are the same.
def denotes (store : Store) (wanted : Path) (entry : Entry) : Bool :=
  entry.names wanted || store.sameFile entry.path wanted = some true

-- The entry ends in the components of a relative path, and one of both does not exist.
def endsLike (store : Store) (wanted : Path) (entry : Entry) : Bool :=
  store.sameFile entry.path wanted = none && (!wanted.hasRoot && entry.path.endsWith wanted)

def matchesIn (store : Store) (wanted : Path) (entry : Entry) : Bool :=
  entry.denotes store wanted || entry.endsLike store wanted

theorem run_matches? (store : Store) (wanted : Path) (entry : Entry) :
    (entry.matches? wanted).run store = ⟨entry.matchesIn store wanted, [], store⟩ := by
  unfold matches? matchesIn denotes endsLike
  cases hnames : entry.names wanted with
  | true => rfl
  | false =>
      rw [if_neg Bool.false_ne_true, Program.run, Program.run]
      cases hsame : store.sameFile entry.path wanted with
      | none => simp [resembles]
      | some same => simp [resembles]

end Entry

theorem run_find? (store : Store) (wanted : Path) (entries : List Entry) :
    (find? wanted entries).run store = ⟨entries.find? (·.matchesIn store wanted), [], store⟩ := by
  induction entries with
  | nil => rfl
  | cons entry entries ih =>
      change ((entry.matches? wanted).bind _).run store = _
      rw [Program.run_bind, Entry.run_matches?]
      dsimp only
      cases hmatches : entry.matchesIn store wanted with
      | true =>
          rw [List.find?_cons_of_pos hmatches]
          rfl
      | false =>
          rw [List.find?_cons_of_neg (by simp [hmatches]), if_neg Bool.false_ne_true, ih]
          rfl

-- The first value that has either of two properties is the first that has the one, exactly if no
-- value before that has the other.
theorem find?_or_eq_iff {α : Type} {p q : α → Bool} {values : List α}
    (h : ∃ value ∈ values, p value = true) :
    values.find? (fun value => p value || q value) = values.find? p ↔
      ∀ value ∈ values.takeWhile (!p ·), q value = false := by
  induction values with
  | nil => exact absurd h (by simp)
  | cons value values ih =>
      cases hp : p value with
      | true => simp [hp]
      | false =>
          have hmore : ∃ value ∈ values, p value = true := by simpa [hp] using h
          cases hq : q value with
          | false => simp [hp, hq, ih hmore]
          | true =>
              -- what is found in the rest has the first property, and this entry has not
              have hne : some value ≠ values.find? p := fun hsame => by
                rw [List.find?_some hsame.symm] at hp
                cases hp
              simp [hp, hq, hne]

section Written

-- An entry as it is written in a database, with null for what it has not.
def Entry.toFields (entry : Entry) : Json.Fields :=
  [("directory", .ofString entry.directory), ("file", .ofString entry.file),
    ("command", Json.ofOption .ofString entry.command),
    ("arguments", Json.ofOption (fun items => .array (items.map .ofString)) entry.arguments)]

theorem Entry.written_toFields (entry : Entry) : Json.WrittenFields entry.toFields := by
  have harguments : (Json.ofOption (fun items => .array (items.map .ofString))
      entry.arguments).Written := by
    cases entry.arguments with
    | none => exact .null
    | some items => exact Json.written_map fun item _ => Json.written_ofString item
  exact Json.writtenFields_cons (Json.written_ofString entry.directory)
    (Json.writtenFields_cons (Json.written_ofString entry.file)
      (Json.writtenFields_cons (Json.written_ofOption entry.command)
        (Json.writtenFields_cons harguments Json.writtenFields_nil)))

theorem Entry.spelling (entry : Entry) {budget : Nat} (hbudget : 0 < budget) :
    Spelling (record budget) entry.toFields entry where
  read := by
    have harguments (items : List String) :
        Json.array (items.map .ofString) ≠ .null ∧
          Json.asList budget Json.asString (.array (items.map .ofString)) = .ok items :=
      ⟨nofun, Json.asList_map hbudget fun item _ => Json.asString_ofString item⟩
    exact Record.read_seq (Record.read_seq (Record.read_seq (Record.read_map _
      (Record.read_field rfl (Json.asString_ofString entry.directory)))
        (Record.read_field rfl (Json.asString_ofString entry.file)))
          (Record.read_field rfl (Json.asOption_ofString entry.command)))
            (Record.read_field rfl (Json.asOption_ofOption harguments entry.arguments))
  names := by simp [toFields]
  written := entry.written_toFields

def toText (entries : List Entry) : String :=
  .ofList ((Json.array (entries.map fun entry => .ofFields entry.toFields)).toText .compact)

theorem parse_written (entries : List Entry) : parse (toText entries).toList = .ok entries := by
  have hwritten : (Json.array (entries.map fun entry => .ofFields entry.toFields)).Written :=
    Json.written_map fun entry _ => .object entry.written_toFields
  have hspaces : ∀ c ∈ ([] : List Char), Json.isSpace c = true := nofun
  rw [toText, String.toList_ofList, parse, ← List.append_nil (Json.toText _ _),
    Json.read_print hwritten .compact hspaces]
  exact Json.asList_map (by decide) fun entry _ => (entry.spelling (by decide)).ofJson (by decide)

-- A store with nothing in it but a database.
def storeOf (entries : List Entry) : Store :=
  (Store.empty 0).set [fileName.toList] (.file (toText entries).toUTF8 0)

theorem read_storeOf (entries : List Entry) :
    ((storeOf entries).read (Path.join ⟨"."⟩ ⟨fileName⟩)).bind Program.ofBytes =
      .ok (toText entries).toList :=
  Program.ofBytes_toUTF8 _

end Written

section Choosing

variable {directory : Path} {text : List Char}

theorem value_ofDatabase
    (hread : (store.read (directory.join ⟨fileName⟩)).bind Program.ofBytes = .ok text)
    (hparse : parse text = .ok entries) (wanted : Path) :
    ((Settings.ofDatabase directory wanted).run store).value =
      match entries.find? (·.matchesIn store wanted) with
      | none => .error (.noEntry wanted)
      | some entry => .ok entry.settings := by
  rw [Settings.ofDatabase, Program.run_textOf_bind, hread]
  dsimp only
  rw [hparse]
  change (((find? wanted entries).bind _).run store).value = _
  rw [Program.run_bind, run_find?]
  cases entries.find? (·.matchesIn store wanted) <;> rfl

-- If an entry names the file, settings are read in any case: those of the first entry that names
-- the file or exists as the same, unless an entry before it merely ends like the file.
theorem ofDatabase_named_iff
    (hread : (store.read (directory.join ⟨fileName⟩)).bind Program.ofBytes = .ok text)
    (hparse : parse text = .ok entries)
    (hnamed : ∃ entry ∈ entries, entry.names wanted = true) :
    ∃ chosen, ((find? wanted entries).run store).value = some chosen ∧
      ((Settings.ofDatabase directory wanted).run store).value = .ok chosen.settings ∧
      (entries.find? (·.denotes store wanted) = some chosen ↔
        ∀ entry ∈ entries.takeWhile (!·.denotes store wanted),
          entry.endsLike store wanted = false) := by
  have hdenotes : ∃ entry ∈ entries, entry.denotes store wanted = true := by
    obtain ⟨entry, hmem, hnames⟩ := hnamed
    exact ⟨entry, hmem, by rw [Entry.denotes, hnames, Bool.true_or]⟩
  have hsome : (entries.find? (·.matchesIn store wanted)).isSome = true := by
    obtain ⟨entry, hmem, hentry⟩ := hdenotes
    exact List.find?_isSome.mpr ⟨entry, hmem, by rw [Entry.matchesIn, hentry, Bool.true_or]⟩
  obtain ⟨chosen, hchosen⟩ := Option.isSome_iff_exists.mp hsome
  refine ⟨chosen, by rw [run_find?, hchosen], ?_, ?_⟩
  · rw [value_ofDatabase hread hparse, hchosen]
  · rw [← hchosen, eq_comm]
    exact find?_or_eq_iff hdenotes

-- A file with a root, behind another one of the same name.
def rooted : List Entry :=
  [⟨"/a/b", "x.h", none, some ["c++", "-DOTHER"]⟩, ⟨"/b", "x.h", none, some ["c++", "-DNAMED"]⟩]

theorem ofDatabase_named_rooted :
    (∃ entry ∈ rooted, entry.names ⟨"/b/x.h"⟩ = true) ∧
      ∃ chosen, rooted[1]? = some chosen ∧
        ((Settings.ofDatabase ⟨"."⟩ ⟨"/b/x.h"⟩).run (storeOf rooted)).value =
          .ok chosen.settings := by
  have hnamed : ∃ entry ∈ rooted, entry.names ⟨"/b/x.h"⟩ = true := ⟨_, .tail _ (.head _), by decide⟩
  obtain ⟨chosen, -, hsettings, hchosen⟩ :=
    ofDatabase_named_iff (read_storeOf rooted) (parse_written rooted) hnamed
  have hfirst : rooted.find? (·.denotes (storeOf rooted) ⟨"/b/x.h"⟩) = rooted[1]? := rfl
  have hnone : ∀ entry ∈ rooted.takeWhile (!·.denotes (storeOf rooted) ⟨"/b/x.h"⟩),
      entry.endsLike (storeOf rooted) ⟨"/b/x.h"⟩ = false := by decide
  exact ⟨hnamed, chosen, hfirst.symm.trans (hchosen.mpr hnone), hsettings⟩

-- A file by its name alone, behind another one that ends in this name.
theorem not_ofDatabase_named :
    ∃ other named : Entry, named.names ⟨"x.h"⟩ = true ∧ other.names ⟨"x.h"⟩ = false ∧
      (storeOf [other, named]).sameFile other.path ⟨"x.h"⟩ = none ∧
      ((Settings.ofDatabase ⟨"."⟩ ⟨"x.h"⟩).run (storeOf [other, named])).value =
        .ok other.settings ∧ other.settings ≠ named.settings := by
  refine ⟨⟨"/a", "s/x.h", none, some ["c++", "-DOTHER"]⟩,
    ⟨"/b", "x.h", none, some ["c++", "-DNAMED"]⟩, by decide, by decide, by decide, ?_, by decide⟩
  rw [value_ofDatabase (read_storeOf _) (parse_written _)]
  rfl

end Choosing

end Database

end Reflection
