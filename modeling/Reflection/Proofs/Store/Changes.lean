import Reflection.Proofs.Outcomes
import Reflection.Store

namespace Reflection

-- The contents of a file; a directory has none.
def Entry.bytes? : Entry → Option ByteArray
  | file bytes _ => some bytes
  | directory _ => none

@[simp] theorem Entry.bytes?_touch (modified : Timestamp) (entry : Entry) :
    (entry.touch modified).bytes? = entry.bytes? := by
  cases entry <;> rfl

-- Where a segment leads, if it leads anywhere.
def Place.walk (place : Place) (segment : List Char) : Place :=
  if Store.isVoid segment then place
  else if Store.isParent segment then place.parent
  else match place with
    | .inside location => .inside (location ++ [segment])
    | place => place

-- Where a path leads, if it leads anywhere.
def Path.place (path : Path) : Place := path.segments.foldl Place.walk (Store.start path)

namespace Store

variable {store earlier later : Store} {path : Path} {place reached : Place}

theorem step_eq_ok {segment : List Char} (h : store.step place segment = .ok reached) :
    (∃ modified, store.entryAt place = .ok (.directory modified)) ∧
      reached = place.walk segment := by
  unfold step at h
  split at h
  · cases h
  · cases h
  · next modified hentry =>
    refine ⟨⟨modified, hentry⟩, ?_⟩
    unfold Place.walk
    split at h
    · next hvoid =>
      rw [if_pos hvoid]
      cases h
      rfl
    · next hvoid =>
      rw [if_neg hvoid]
      split at h
      · next hparent =>
        rw [if_pos hparent]
        cases h
        rfl
      · next hparent =>
        rw [if_neg hparent]
        split at h
        · cases h
        · cases place with
          | inside location =>
              cases h
              rfl
          | above between => cases h
          | root => cases h

theorem foldlM_step_eq_ok {segments : List (List Char)}
    (h : segments.foldlM store.step place = .ok reached) :
    reached = segments.foldl Place.walk place := by
  induction segments generalizing place with
  | nil =>
      cases h
      rfl
  | cons segment segments ih =>
      rw [List.foldlM_cons] at h
      obtain ⟨next, hstep, hmore⟩ := exists_ok_of_bind h
      rw [List.foldl_cons, ← (step_eq_ok hstep).2]
      exact ih hmore

-- A path that leads somewhere in one store is looked up segment by segment in all.
theorem resolve_eq_ok (h : store.resolve path = .ok place) :
    path.segments.foldlM store.step (start path) = .ok place ∧
      ∀ other : Store, other.resolve path = path.segments.foldlM other.step (start path) := by
  unfold resolve at h
  split at h
  · cases h
  · next hempty =>
    split at h
    · cases h
    · next hvalid =>
      split at h
      · cases h
      · next hshort =>
        exact ⟨h, fun other => by rw [resolve, if_neg hempty, if_neg hvalid, if_neg hshort]⟩

theorem place_of_resolve (h : store.resolve path = .ok place) : path.place = place :=
  (foldlM_step_eq_ok (resolve_eq_ok h).1).symm

-- What stands at a location: nothing, a directory, or a file with these contents.
def contents? (store : Store) (location : Location) : Option (Option ByteArray) :=
  (store.entry? location).map Entry.bytes?

-- What `later` has, `earlier` has with the same contents, but for files at the locations in
-- `changed`.
structure Keeps (changed : Location → Prop) (earlier later : Store) : Prop where
  kept : ∀ location bytes?, ¬changed location → later.contents? location = some bytes? →
    earlier.contents? location = some bytes?
  files : ∀ location, changed location → later.contents? location ≠ some none

variable {changed : Location → Prop}

theorem Keeps.entryAt (h : Keeps changed earlier later) {entry : Entry}
    (hplace : ∀ location, place = .inside location → ¬changed location)
    (hentry : later.entryAt place = .ok entry) :
    ∃ before, earlier.entryAt place = .ok before ∧ before.bytes? = entry.bytes? := by
  cases place with
  | inside location =>
      cases hlater : later.entry? location with
      | none => simp [Store.entryAt, hlater] at hentry
      | some found =>
          obtain rfl : found = entry := by simpa [Store.entryAt, hlater] using hentry
          have hcontents : later.contents? location = some found.bytes? := by
            rw [contents?, hlater, Option.map_some]
          obtain ⟨before, hbefore, hbytes⟩ := Option.map_eq_some_iff.mp
            (h.kept location _ (hplace location rfl) hcontents)
          exact ⟨before, by simp [Store.entryAt, hbefore], hbytes⟩
  | above between =>
      cases hentry
      exact ⟨_, rfl, rfl⟩
  | root =>
      cases hentry
      exact ⟨_, rfl, rfl⟩

theorem Keeps.directory (h : Keeps changed earlier later) {modified : Timestamp}
    (hentry : later.entryAt place = .ok (.directory modified)) :
    ∃ modified, earlier.entryAt place = .ok (.directory modified) := by
  have hplace : ∀ location, place = .inside location → ¬changed location := by
    rintro location rfl hchanged
    cases hlater : later.entry? location with
    | none => simp [Store.entryAt, hlater] at hentry
    | some found =>
        obtain rfl : found = .directory modified := by simpa [Store.entryAt, hlater] using hentry
        exact h.files location hchanged (by rw [contents?, hlater]; rfl)
  obtain ⟨before, hbefore, hbytes⟩ := h.entryAt hplace hentry
  cases before with
  | file bytes _ => cases hbytes
  | directory modified => exact ⟨modified, hbefore⟩

-- Paths lead nowhere where they did not lead before.
theorem Keeps.step (h : Keeps changed earlier later) {segment : List Char}
    (hstep : later.step place segment = .ok reached) :
    earlier.step place segment = .ok reached := by
  obtain ⟨modified, hentry⟩ := (step_eq_ok hstep).1
  obtain ⟨before, hbefore⟩ := h.directory hentry
  unfold Store.step at hstep ⊢
  rw [hentry] at hstep
  rw [hbefore]
  exact hstep

theorem Keeps.resolve (h : Keeps changed earlier later)
    (hresolve : later.resolve path = .ok place) : earlier.resolve path = .ok place := by
  obtain ⟨hsteps, hresolves⟩ := resolve_eq_ok hresolve
  rw [hresolves earlier]
  generalize path.segments = segments, start path = start at hsteps ⊢
  induction segments generalizing start with
  | nil => exact hsteps
  | cons segment segments ih =>
      rw [List.foldlM_cons] at hsteps
      obtain ⟨next, hstep, hmore⟩ := exists_ok_of_bind hsteps
      rw [List.foldlM_cons, h.step hstep]
      exact ih next hmore

theorem lookup_eq_ok {entry : Entry} :
    store.lookup path = .ok entry ↔
      store.resolve path = .ok path.place ∧ store.entryAt path.place = .ok entry := by
  unfold lookup
  cases hresolve : store.resolve path with
  | error error => exact ⟨fun h => (by cases h), fun h => (by cases h.1)⟩
  | ok place =>
      rw [place_of_resolve hresolve]
      exact ⟨fun h => ⟨rfl, h⟩, fun h => h.2⟩

theorem Keeps.lookup (h : Keeps changed earlier later) {entry : Entry}
    (hplace : ∀ location, path.place = .inside location → ¬changed location)
    (hlookup : later.lookup path = .ok entry) :
    ∃ before, earlier.lookup path = .ok before ∧ before.bytes? = entry.bytes? := by
  obtain ⟨hresolve, hentry⟩ := lookup_eq_ok.mp hlookup
  obtain ⟨before, hbefore, hbytes⟩ := h.entryAt hplace hentry
  exact ⟨before, lookup_eq_ok.mpr ⟨h.resolve hresolve, hbefore⟩, hbytes⟩

theorem read_eq_ok {bytes : ByteArray} :
    store.read path = .ok bytes ↔ ∃ modified, store.lookup path = .ok (.file bytes modified) := by
  unfold read
  cases store.lookup path with
  | error error => exact ⟨fun h => (by cases h), fun ⟨_, h⟩ => (by cases h)⟩
  | ok entry =>
      cases entry with
      | file found modified =>
          constructor
          · intro h
            cases h
            exact ⟨modified, rfl⟩
          · rintro ⟨_, h⟩
            cases h
            rfl
      | directory modified => exact ⟨fun h => (by cases h), fun ⟨_, h⟩ => (by cases h)⟩

theorem modified_of_read {bytes : ByteArray} (h : store.read path = .ok bytes) :
    ∃ modified, store.modified path = .ok modified := by
  obtain ⟨modified, hlookup⟩ := read_eq_ok.mp h
  exact ⟨modified, by rw [Store.modified, hlookup]; rfl⟩

theorem Keeps.read (h : Keeps changed earlier later) {bytes : ByteArray}
    (hplace : ∀ location, path.place = .inside location → ¬changed location)
    (hread : later.read path = .ok bytes) : earlier.read path = .ok bytes := by
  obtain ⟨modified, hlookup⟩ := read_eq_ok.mp hread
  obtain ⟨before, hbefore, hbytes⟩ := h.lookup hplace hlookup
  cases before with
  | file found _ =>
      obtain rfl : found = bytes := Option.some.inj hbytes
      exact read_eq_ok.mpr ⟨_, hbefore⟩
  | directory _ => cases hbytes

section Changing

theorem contents?_set_self (location : Location) (entry : Entry) :
    (store.set location entry).contents? location = some entry.bytes? := by
  rw [contents?, set]
  simp

theorem contents?_set_ne {location other : Location} (h : other ≠ location) (entry : Entry) :
    (store.set location entry).contents? other = store.contents? other := by
  rw [contents?, set]
  simp [contents?, h]

-- Another time for an entry changes no contents.
theorem contents?_set_touch {location : Location} {entry : Entry}
    (hentry : store.entry? location = some entry) (modified : Timestamp) (other : Location) :
    (store.set location (entry.touch modified)).contents? other = store.contents? other := by
  by_cases hother : other = location
  · subst hother
    rw [contents?_set_self, contents?, hentry]
    simp
  · exact contents?_set_ne hother _

theorem contents?_add {location other : Location} (h : other ≠ location) (entry : Entry) :
    (store.add location entry).contents? other = store.contents? other := by
  unfold add
  dsimp only
  rw [contents?_set_ne h]
  cases hparent : store.entry? location.dropLast with
  | none => rfl
  | some directory => exact contents?_set_touch hparent store.now other

theorem keeps_of_eq (h : ∀ location, later.contents? location = earlier.contents? location) :
    Keeps (fun _ => False) earlier later :=
  ⟨fun location _ _ hcontents => h location ▸ hcontents, fun _ hchanged => hchanged.elim⟩

theorem keeps_touch {modified : Timestamp} (h : store.touch path modified = .ok later) :
    Keeps (fun _ => False) store later := by
  refine keeps_of_eq fun other => ?_
  obtain ⟨place, hresolve, h⟩ := exists_ok_of_bind h
  cases place with
  | above between =>
      cases h
      rfl
  | root =>
      cases h
      rfl
  | inside location =>
      dsimp only at h
      split at h
      · cases h
      · next entry hentry =>
        cases h
        exact contents?_set_touch hentry modified other

theorem keeps_remove (h : store.remove path = .ok later) :
    Keeps (fun _ => False) store later := by
  refine ⟨fun other bytes? _ hcontents => ?_, fun _ hchanged => hchanged.elim⟩
  obtain ⟨place, hresolve, h⟩ := exists_ok_of_bind h
  cases place with
  | above between =>
      cases h
      exact hcontents
  | root =>
      cases h
      exact hcontents
  | inside location =>
      cases h
      unfold contents? at hcontents ⊢
      dsimp only at hcontents
      split at hcontents
      · cases hcontents
      · exact hcontents

-- What a successful write does: there was no directory, there is a file, and nothing else changes.
theorem write_eq_ok {bytes : ByteArray} (h : store.write path bytes = .ok later) :
    ∃ location, store.resolve path = .ok (.inside location) ∧
      store.contents? location ≠ some none ∧ later.contents? location = some (some bytes) ∧
      ∀ other, other ≠ location → later.contents? other = store.contents? other := by
  obtain ⟨place, hresolve, h⟩ := exists_ok_of_bind h
  cases place with
  | above between => cases h
  | root => cases h
  | inside location =>
      refine ⟨location, hresolve, ?_⟩
      dsimp only at h
      split at h
      · cases h
      · next before _ hentry =>
        cases h
        refine ⟨by simp [contents?, hentry, Entry.bytes?], ?_,
          fun other hother => contents?_set_ne hother _⟩
        exact contents?_set_self location _
      · next hentry =>
        cases h
        refine ⟨by simp [contents?, hentry], ?_, fun other hother => contents?_add hother _⟩
        exact contents?_set_self location _

-- Seen from elsewhere, a store is the same before and after a write.
theorem keeps_write {bytes : ByteArray} (h : store.write path bytes = .ok later) :
    ∃ location, path.place = .inside location ∧ Keeps (· = location) store later ∧
      Keeps (· = location) later store := by
  obtain ⟨location, hresolve, hbefore, hafter, hothers⟩ := write_eq_ok h
  refine ⟨location, place_of_resolve hresolve, ?_, ?_⟩
  · refine ⟨fun other _ hother hcontents => hothers other hother ▸ hcontents, ?_⟩
    rintro _ rfl
    simp [hafter]
  · refine ⟨fun other _ hother hcontents => (hothers other hother).symm ▸ hcontents, ?_⟩
    rintro _ rfl
    exact hbefore

theorem read_write {bytes : ByteArray} (h : store.write path bytes = .ok later) :
    later.read path = .ok bytes := by
  obtain ⟨location, hresolve, _, hafter, _⟩ := write_eq_ok h
  obtain ⟨_, hplace, _, hkeeps⟩ := keeps_write h
  obtain ⟨entry, hentry, hbytes⟩ := Option.map_eq_some_iff.mp hafter
  rw [place_of_resolve hresolve] at hplace
  cases hplace
  refine read_eq_ok.mpr ?_
  cases entry with
  | directory _ => cases hbytes
  | file found modified =>
      obtain rfl : found = bytes := Option.some.inj hbytes
      refine ⟨modified, lookup_eq_ok.mpr ⟨?_, ?_⟩⟩
      · rw [place_of_resolve hresolve]
        exact hkeeps.resolve hresolve
      · rw [place_of_resolve hresolve, entryAt, hentry]

-- A file with its contents and the time when it was modified.
def file? (store : Store) (location : Location) : Option (ByteArray × Timestamp) :=
  match store.entry? location with
  | some (.file bytes modified) => some (bytes, modified)
  | _ => none

-- All that is above a place in the store is a directory.
def Above (store : Store) (place : Place) : Prop :=
  ∀ location, place = .inside location → ∀ above, above <+: location → above ≠ location →
    ∃ modified, store.entry? above = some (.directory modified)

theorem Above.parent (h : Above store place) : Above store place.parent := by
  intro location hlocation above habove hne
  cases place with
  | above between => cases hlocation
  | root => cases hlocation
  | inside inner =>
      cases inner with
      | nil => cases hlocation
      | cons name names =>
          obtain rfl : (name :: names).dropLast = location := Place.inside.inj hlocation
          refine h _ rfl above (habove.trans (List.dropLast_prefix _)) ?_
          rintro rfl
          have hlength := habove.length_le
          rw [List.length_dropLast, List.length_cons] at hlength
          omega

theorem Above.child (h : Above store place) {modified : Timestamp}
    (hentry : store.entryAt place = .ok (.directory modified)) {name : List Char}
    (hchild : place.child name = .ok reached) : Above store reached := by
  cases place with
  | above between => cases hchild
  | root => cases hchild
  | inside inner =>
      cases hchild
      intro location hlocation above habove hne
      obtain rfl := Place.inside.inj hlocation
      obtain heq | hprefix := List.prefix_concat_iff.mp habove
      · exact absurd heq hne
      · by_cases hinner : above = inner
        · subst hinner
          cases hfound : store.entry? above with
          | none => simp [entryAt, hfound] at hentry
          | some entry => exact ⟨modified, by simpa [entryAt, hfound] using hentry⟩
        · exact h inner rfl above hprefix hinner

theorem Above.step (h : Above store place) {segment : List Char}
    (hstep : store.step place segment = .ok reached) : Above store reached := by
  obtain ⟨modified, hentry⟩ := (step_eq_ok hstep).1
  unfold Store.step at hstep
  rw [hentry] at hstep
  dsimp only at hstep
  split at hstep
  · cases hstep
    exact h
  · split at hstep
    · cases hstep
      exact h.parent
    · split at hstep
      · cases hstep
      · exact h.child hentry hstep

theorem above_resolve (h : store.resolve path = .ok place) : Above store place := by
  have hsteps := (resolve_eq_ok h).1
  have hstart : Above store (start path) := by
    intro location hlocation above habove hne
    unfold start at hlocation
    split at hlocation
    · cases hlocation
    · cases hlocation
      exact absurd (List.prefix_nil.mp habove) hne
  generalize path.segments = segments, start path = start at hsteps hstart
  induction segments generalizing start with
  | nil =>
      cases hsteps
      exact hstart
  | cons segment segments ih =>
      rw [List.foldlM_cons] at hsteps
      obtain ⟨next, hstep, hmore⟩ := exists_ok_of_bind hsteps
      exact ih next hmore (hstart.step hstep)

theorem file?_set_ne {location other : Location} (h : other ≠ location) (entry : Entry) :
    (store.set location entry).file? other = store.file? other := by
  simp [file?, set, h]

-- A new entry changes its directory, but no file besides.
theorem file?_add {location other : Location} (h : other ≠ location) (entry : Entry)
    (habove : Above store (.inside location)) :
    (store.add location entry).file? other = store.file? other := by
  unfold add
  dsimp only
  rw [file?_set_ne h]
  by_cases hparent : other = location.dropLast
  · subst hparent
    obtain ⟨modified, hdirectory⟩ := habove location rfl _ (List.dropLast_prefix location) h
    rw [hdirectory]
    simp [file?, set, hdirectory, Entry.touch]
  · cases store.entry? location.dropLast with
    | none => rfl
    | some directory => exact file?_set_ne hparent _

-- Besides the file that is written, all files keep their contents and times.
theorem file?_write {bytes : ByteArray} (h : store.write path bytes = .ok later) :
    ∃ location, path.place = .inside location ∧
      ∀ other ≠ location, later.file? other = store.file? other := by
  obtain ⟨place, hresolve, h⟩ := exists_ok_of_bind h
  cases place with
  | above between => cases h
  | root => cases h
  | inside location =>
      refine ⟨location, place_of_resolve hresolve, fun other hother => ?_⟩
      dsimp only at h
      split at h
      · cases h
      · cases h
        exact file?_set_ne hother _
      · cases h
        exact file?_add hother _ (above_resolve hresolve)

-- A file that can be read can be written.
theorem write_of_read {before : ByteArray} (h : store.read path = .ok before)
    (bytes : ByteArray) : ∃ later, store.write path bytes = .ok later := by
  obtain ⟨modified, hlookup⟩ := read_eq_ok.mp h
  obtain ⟨hresolve, hentry⟩ := lookup_eq_ok.mp hlookup
  generalize path.place = place at hresolve hentry
  cases place with
  | above between => cases hentry
  | root => cases hentry
  | inside location =>
      cases hfound : store.entry? location with
      | none => simp [entryAt, hfound] at hentry
      | some entry =>
          obtain rfl : entry = .file before modified := by simpa [entryAt, hfound] using hentry
          refine ⟨(store.set location (.file bytes store.now)).tick, ?_⟩
          rw [write, hresolve]
          simp only [bind, Except.bind, hfound]

end Changing

end Store

end Reflection
