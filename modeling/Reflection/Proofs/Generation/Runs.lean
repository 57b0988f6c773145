import Reflection.Generation
import Reflection.Proofs.Interleavings
import Reflection.Proofs.RecordedHash
import Reflection.Proofs.Store.Changes

namespace Reflection

namespace Program

variable {α β : Type} {path : Path}

-- Looks at nothing but the contents of one file, and changes nothing.
def Reads (path : Path) : Program α → Prop
  | done _ => True
  | read other rest => other = path ∧ ∀ answer, (rest answer).Reads path
  | notify _ rest => rest.Reads path
  | modified _ _ | write _ _ _ | sameFile _ _ _ => False

theorem Reads.bind {program : Program α} {next : α → Program β} (h : program.Reads path)
    (hnext : ∀ value, (next value).Reads path) : (program.bind next).Reads path := by
  induction program with
  | done value => exact hnext value
  | read other rest ih => exact ⟨h.1, fun answer => ih answer (h.2 answer)⟩
  | notify notice rest ih => exact ih h
  | modified _ _ | write _ _ _ | sameFile _ _ _ => exact h.elim

theorem Reads.looks {program : Program α} (h : program.Reads path) : program.Looks := by
  induction program with
  | done value => trivial
  | read other rest ih => exact fun answer => ih answer (h.2 answer)
  | notify notice rest ih => exact ih h
  | modified _ _ | write _ _ _ | sameFile _ _ _ => exact h.elim

theorem Silent.reads {program : Program α} (h : program.Silent) (path : Path) :
    program.Reads path := by
  induction program with
  | done value => trivial
  | notify notice rest ih => exact ih h
  | modified _ _ | read _ _ | write _ _ _ | sameFile _ _ _ => exact h.elim

theorem ReadsOnce.reads {program : Program α} (h : program.ReadsOnce path) :
    program.Reads path := by
  induction program with
  | read other rest => exact ⟨h.1, fun answer => (h.2 answer).reads path⟩
  | notify notice rest ih => exact ih h
  | done _ | modified _ _ | write _ _ _ | sameFile _ _ _ => exact h.elim

theorem Reads.value_run {program : Program α} (h : program.Reads path) {store other : Store}
    (hread : store.read path = other.read path) :
    (program.run store).value = (program.run other).value := by
  induction program with
  | done value => rfl
  | read path rest ih =>
      obtain ⟨rfl, hrest⟩ := h
      rw [run, run, hread]
      exact ih _ (hrest _)
  | notify notice rest ih => exact ih h
  | modified _ _ | write _ _ _ | sameFile _ _ _ => exact h.elim

instance : LawfulMonad Program :=
  LawfulMonad.mk' Program bind_done (fun _ _ => rfl) bind_assoc

-- What a program leaves of value and store, without its notices.
def outcome (program : Program α) (store : Store) : α × Store :=
  ((program.run store).value, (program.run store).store)

theorem outcome_bind (program : Program α) (next : α → Program β) (store : Store) :
    (program.bind next).outcome store =
      (next (program.outcome store).1).outcome (program.outcome store).2 := by
  rw [outcome, run_bind]
  rfl

theorem outcome_notifyAll (notices : List Notice) (store : Store) :
    (notifyAll notices).outcome store = ((), store) := by
  have hreads : (notifyAll notices).Reads ⟨""⟩ := (silent_notifyAll notices).reads _
  rw [outcome, hreads.looks.store_run]

theorem outcome_orThrow {ε ε' : Type} (f : ε → ε') (program : Program (Except ε α))
    (store : Store) : (program.orThrow f).run.outcome store =
      ((program.run store).value.mapError f, (program.run store).store) :=
  outcome_bind program _ store

theorem run_timeOf_bind (path : Path) (next : Except FileError Timestamp → Program α)
    (store : Store) : (timeOf path >>= next).run store = (next (store.modified path)).run store :=
  rfl

theorem run_bytesOf_bind (path : Path) (next : Except FileError ByteArray → Program α)
    (store : Store) : (bytesOf path >>= next).run store = (next (store.read path)).run store :=
  rfl

theorem run_textOf_bind (path : Path) (next : Except FileError (List Char) → Program α)
    (store : Store) : (textOf path >>= next).run store =
      (next ((store.read path).bind ofBytes)).run store :=
  rfl

theorem ofBytes_toUTF8 (text : String) : ofBytes text.toUTF8 = .ok text.toList := by
  have htext : String.fromUTF8? text.toUTF8 = some text := by
    have hvalid : text.toUTF8.IsValidUTF8 := text.isValidUTF8
    rw [String.fromUTF8?, dif_pos hvalid]
    rfl
  rw [ofBytes, htext]

theorem exists_of_ofBytes {bytes : ByteArray} {chars : List Char} (h : ofBytes bytes = .ok chars) :
    ∃ text : String, bytes = text.toUTF8 ∧ chars = text.toList := by
  unfold ofBytes at h
  split at h
  · next text htext =>
    unfold String.fromUTF8? at htext
    split at htext
    · cases htext
      cases h
      exact ⟨_, rfl, rfl⟩
    · cases htext
  · cases h

end Program

namespace Freshness

variable {store : Store} {source artifact : Path}

-- The artifact records the digest of the source.
def Recorded (store : Store) (source artifact : Path) : Prop :=
  ∃ (bytes : ByteArray) (text : String), store.read source = .ok bytes ∧
    store.read artifact = .ok text.toUTF8 ∧
    recordedHash text.toList = some (sourceHash bytes).toList

theorem looks_byContents (source artifact : Path) : (byContents source artifact).Looks := by
  refine (Program.looks_bytesOf source).bind fun bytes => ?_
  split
  · trivial
  · refine (Program.looks_textOf artifact).bind fun text => ?_
    split <;> trivial

theorem looks_check (gate : Gate) (source artifact : Path) :
    (check gate source artifact).Looks := by
  refine (Program.looks_timeOf source).bind fun sourceTime => ?_
  split
  · trivial
  · refine (Program.looks_timeOf artifact).bind fun artifactTime => ?_
    split
    · trivial
    · trivial
    · cases gate with
      | timestamp => trivial
      | contentHash => exact looks_byContents source artifact

theorem ofContents_eq_upToDate {bytes : ByteArray} {text : List Char} :
    ofContents bytes text = .upToDate ↔ recordedHash text = some (sourceHash bytes).toList := by
  unfold ofContents ofBool
  split <;> simp_all

theorem byContents_eq_upToDate :
    ((byContents source artifact).run store).value = .ok .upToDate ↔
      Recorded store source artifact := by
  unfold byContents
  rw [Program.run_bytesOf_bind]
  constructor
  · intro h
    split at h
    · cases h
    · next bytes hsource =>
      rw [Program.run_textOf_bind] at h
      split at h
      · cases h
      · next chars hchars =>
        obtain ⟨found, hfound, hbytes⟩ := exists_ok_of_bind hchars
        obtain ⟨text, rfl, rfl⟩ := Program.exists_of_ofBytes hbytes
        exact ⟨bytes, text, hsource, hfound, ofContents_eq_upToDate.mp (Except.ok.inj h)⟩
  · rintro ⟨bytes, text, hsource, hartifact, hhash⟩
    have htext : (store.read artifact).bind Program.ofBytes = .ok text.toList := by
      rw [hartifact]
      exact Program.ofBytes_toUTF8 text
    rw [hsource]
    dsimp only
    rw [Program.run_textOf_bind, htext]
    exact congrArg Except.ok (ofContents_eq_upToDate.mpr hhash)

theorem check_eq_upToDate :
    ((check .contentHash source artifact).run store).value = .ok .upToDate ↔
      Recorded store source artifact := by
  unfold check
  rw [Program.run_timeOf_bind]
  constructor
  · intro h
    split at h
    · cases h
    · rw [Program.run_timeOf_bind] at h
      split at h
      · cases h
      · cases h
      · exact byContents_eq_upToDate.mp h
  · intro h
    have ⟨bytes, text, hsource, hartifact, _⟩ := h
    obtain ⟨sourceTime, hsourceTime⟩ := Store.modified_of_read hsource
    obtain ⟨artifactTime, hartifactTime⟩ := Store.modified_of_read hartifact
    rw [hsourceTime]
    dsimp only
    rw [Program.run_timeOf_bind, hartifactTime]
    exact byContents_eq_upToDate.mpr h

-- An artifact that records a digest is fresh as long as the source has this digest.
theorem check_eq_upToDate_iff {text hash : String}
    (hread : store.read artifact = .ok text.toUTF8)
    (hrecorded : recordedHash text.toList = some hash.toList) :
    ((check .contentHash source artifact).run store).value = .ok .upToDate ↔
      ∃ bytes, store.read source = .ok bytes ∧ sourceHash bytes = hash := by
  rw [check_eq_upToDate]
  constructor
  · rintro ⟨bytes, found, hsource, hfound, hhash⟩
    obtain rfl : found = text :=
      String.toByteArray_inj.mp (Except.ok.inj (hfound.symm.trans hread))
    rw [hrecorded] at hhash
    exact ⟨bytes, hsource, (String.toList_inj.mp (Option.some.inj hhash)).symm⟩
  · rintro ⟨bytes, hsource, rfl⟩
    exact ⟨bytes, text, hsource, hread, hrecorded⟩

end Freshness

theorem Source.readsOnce_load (options : Header.ParseOptions) (path : Path) :
    (load options path).ReadsOnce path := by
  refine (Program.readsOnce_textOf path).bind fun result => ?_
  cases result with
  | error error => trivial
  | ok text =>
      dsimp only
      split
      · trivial
      · unfold ofHeader
        dsimp only
        split
        · trivial
        · exact (Program.silent_notifyAll _).bind fun _ => trivial

theorem Source.value_load_of_parse {store : Store} {options : Header.ParseOptions} {path : Path}
    {text : String} {parsed : Header.Parsed} (hread : store.read path = .ok text.toUTF8)
    (hpath : isTree path = false)
    (hparsed : Header.parse options.mode (Header.expand options.macros text.toList) = .ok parsed) :
    ((load options path).run store).value = .ok parsed.tree := by
  have htext : (store.read path).bind Program.ofBytes = .ok text.toList := by
    rw [hread]
    exact Program.ofBytes_toUTF8 text
  rw [load, Program.run_textOf_bind, htext]
  simp only [hpath, ofHeader, hparsed]
  exact congrArg Ran.value (Program.run_bind _ _ store)

namespace GenerationRequest

variable {α β : Type} {store later : Store}

section Steps

variable {step : Step α} {next : α → Step β}

theorem outcome_bind (store : Store) : (step >>= next).run.outcome store =
    match step.run.outcome store with
    | (.ok value, later) => (next value).run.outcome later
    | (.error error, later) => (.error error, later) := by
  change (step.run.bind _).outcome store = _
  rw [Program.outcome_bind]
  rcases step.run.outcome store with ⟨_ | _, later⟩ <;> rfl

theorem outcome_lift (program : Program α) (store : Store) :
    (liftM program : Step α).run.outcome store =
      (.ok (program.outcome store).1, (program.outcome store).2) :=
  Program.outcome_bind program _ store

theorem looks_bind (h : step.run.Looks)
    (hnext : ∀ value, (next value).run.Looks) : (step >>= next).run.Looks := by
  refine Program.Looks.bind h fun result => ?_
  cases result with
  | error error => trivial
  | ok value => exact hnext value

theorem silent_bind (h : step.run.Silent)
    (hnext : ∀ value, (next value).run.Silent) : (step >>= next).run.Silent := by
  refine Program.Silent.bind h fun result => ?_
  cases result with
  | error error => trivial
  | ok value => exact hnext value

theorem reads_bind {path : Path} (h : step.run.Reads path)
    (hnext : ∀ value, (next value).run.Reads path) : (step >>= next).run.Reads path := by
  refine Program.Reads.bind h fun result => ?_
  cases result with
  | ok value => exact hnext value
  | error error => trivial

end Steps

section Preparing

-- Everything before the write: the text of the artifact, and what was selected for it.
def prepare (request : GenerationRequest) : Step (String × Selected) := do
  let selected ← request.select (← request.load)
  return (request.render (← request.digest) selected, selected)

theorem regenerate_eq (request : GenerationRequest) :
    request.regenerate = (do
      let (text, selected) ← request.prepare
      match request.output with
      | none => return .rendered text selected.types.length selected.findings
      | some output =>
        write output text
        return .written output selected.types.length selected.findings) := by
  rw [regenerate, prepare, bind_assoc]
  refine bind_congr fun tree => ?_
  rw [bind_assoc]
  refine bind_congr fun selected => ?_
  rw [bind_assoc]
  exact bind_congr fun hash => (pure_bind _ _).symm

theorem readsOnce_load (request : GenerationRequest) :
    request.load.run.ReadsOnce request.input :=
  (Source.readsOnce_load request.parsing request.input).orThrow _

theorem silent_select (request : GenerationRequest) (tree : DeclarationTree) :
    (request.select tree).run.Silent := by
  refine silent_bind ((Program.silent_notifyAll _).bind fun _ => trivial) fun _ => ?_
  split <;> trivial

theorem readsOnce_digest {request : GenerationRequest} (hgate : request.gate = .contentHash) :
    request.digest.run.ReadsOnce request.input := by
  rw [digest, hgate]
  refine Program.ReadsOnce.bind ((Program.readsOnce_bytesOf _).orThrow _) fun result => ?_
  cases result <;> trivial

theorem reads_digest (request : GenerationRequest) : request.digest.run.Reads request.input := by
  cases hgate : request.gate with
  | timestamp =>
      rw [digest, hgate]
      trivial
  | contentHash => exact (readsOnce_digest hgate).reads

theorem reads_prepare (request : GenerationRequest) : request.prepare.run.Reads request.input :=
  reads_bind request.readsOnce_load.reads fun tree =>
    reads_bind ((request.silent_select tree).reads _) fun _ =>
      reads_bind request.reads_digest fun _ => trivial

-- An artifact that these contents of the source are made into.
def Makes (request : GenerationRequest) (bytes : ByteArray) (text : String) (selected : Selected) :
    Prop :=
  ∃ store : Store, store.read request.input = .ok bytes ∧
    (request.prepare.run.run store).value = .ok (text, selected)

theorem Makes.value_prepare {request : GenerationRequest} {bytes : ByteArray} {text : String}
    {selected : Selected} (h : request.Makes bytes text selected)
    (hread : store.read request.input = .ok bytes) :
    (request.prepare.run.run store).value = .ok (text, selected) := by
  obtain ⟨other, hother, hprepare⟩ := h
  rw [request.reads_prepare.value_run (hread.trans hother.symm), hprepare]

theorem outcome_load (request : GenerationRequest) (store : Store) :
    request.load.run.outcome store =
      (((Source.load request.parsing request.input).run store).value.mapError .source, store) := by
  rw [load, Program.outcome_orThrow, (Source.readsOnce_load _ _).reads.looks.store_run]

theorem outcome_select (request : GenerationRequest) (tree : DeclarationTree) (store : Store) :
    (request.select tree).run.outcome store =
      ((tree.select request.selection).outcome.mapError .selection, store) := by
  rw [select, outcome_bind, outcome_lift, Program.outcome_notifyAll]
  dsimp only
  cases (tree.select request.selection).outcome <;> rfl

-- The digest that is recorded, if these are the contents of the source.
def digestOf (request : GenerationRequest) (contents : Except FileError ByteArray) :
    Except GenerationError (Option String) :=
  match request.gate with
  | .timestamp => .ok none
  | .contentHash => (contents.mapError fun error => .source (.unreadable request.input error)).map
      fun bytes => some (sourceHash bytes)

theorem outcome_digest (request : GenerationRequest) (store : Store) :
    request.digest.run.outcome store = (request.digestOf (store.read request.input), store) := by
  unfold digest digestOf
  cases request.gate with
  | timestamp => rfl
  | contentHash =>
      rw [outcome_bind, Program.outcome_orThrow, Program.bytesOf, Program.run]
      cases store.read request.input <;> rfl

-- The text that a store gives for the output: the artifact of the types that are selected from
-- the source as it is, with its digest if contents are compared.
def Renders (request : GenerationRequest) (store : Store) (text : String) (selected : Selected) :
    Prop :=
  ∃ tree hash, ((Source.load request.parsing request.input).run store).value = .ok tree ∧
    (tree.select request.selection).outcome = .ok selected ∧
    request.digestOf (store.read request.input) = .ok hash ∧
    text = Artifact.render request.format request.cpp
      ⟨sourceName request.input, hash, selected.types⟩

theorem prepare_eq_ok {request : GenerationRequest} {text : String} {selected : Selected} :
    (request.prepare.run.run store).value = .ok (text, selected) ↔
      request.Renders store text selected := by
  change (request.prepare.run.outcome store).1 = _ ↔ _
  rw [prepare, outcome_bind, outcome_load]
  unfold Renders
  cases ((Source.load request.parsing request.input).run store).value with
  | error error => exact ⟨nofun, nofun⟩
  | ok tree =>
      dsimp only [Except.mapError]
      rw [outcome_bind, outcome_select]
      cases hselect : (tree.select request.selection).outcome with
      | error findings =>
          refine ⟨nofun, ?_⟩
          rintro ⟨_, _, htree, hselected, _⟩
          cases htree
          cases hselect.symm.trans hselected
      | ok found =>
          dsimp only [Except.mapError]
          rw [outcome_bind, outcome_digest]
          cases request.digestOf (store.read request.input) with
          | error error => exact ⟨nofun, nofun⟩
          | ok hash =>
              constructor
              · intro h
                cases h
                exact ⟨tree, hash, rfl, hselect, rfl, rfl⟩
              · rintro ⟨_, _, htree, hselected, hhash, rfl⟩
                cases htree
                cases hhash
                cases hselect.symm.trans hselected
                rfl

theorem Renders.exists_bytes {request : GenerationRequest} (hgate : request.gate = .contentHash)
    {text : String} {selected : Selected} (h : request.Renders store text selected) :
    ∃ bytes, store.read request.input = .ok bytes ∧
      text = request.render (some (sourceHash bytes)) selected := by
  obtain ⟨tree, hash, _, _, hhash, rfl⟩ := h
  rw [digestOf, hgate] at hhash
  cases hread : store.read request.input with
  | error error =>
      rw [hread] at hhash
      cases hhash
  | ok bytes =>
      rw [hread] at hhash
      cases hhash
      exact ⟨bytes, rfl, rfl⟩

theorem recordedHash_render_some {request : GenerationRequest}
    (hname : '\n' ∉ (sourceName request.input).toList) (bytes : ByteArray) (selected : Selected) :
    recordedHash (request.render (some (sourceHash bytes)) selected).toList =
      some (sourceHash bytes).toList := by
  refine @recordedHash_render ⟨sourceName request.input, some (sourceHash bytes), selected.types⟩
    hname (fun hash hmem c hc => ?_) request.format request.cpp
  obtain rfl : sourceHash bytes = hash := Option.some.inj hmem
  exact isBlank_of_isHex (isHex_sourceHash bytes c hc)

-- With the gate that compares contents, the text records the digest of the source.
theorem Makes.recordedHash_eq {request : GenerationRequest} (hgate : request.gate = .contentHash)
    (hname : '\n' ∉ (sourceName request.input).toList) {bytes : ByteArray} {text : String}
    {selected : Selected} (h : request.Makes bytes text selected) :
    recordedHash text.toList = some (sourceHash bytes).toList := by
  obtain ⟨store, hread, hprepare⟩ := h
  obtain ⟨found, hfound, rfl⟩ := (prepare_eq_ok.mp hprepare).exists_bytes hgate
  obtain rfl : bytes = found := Except.ok.inj (hread.symm.trans hfound)
  exact recordedHash_render_some hname bytes selected

end Preparing

section Running

variable {request : GenerationRequest} {output : Path}

theorem outcome_isUpToDate_of_force (hforce : request.force = true) (store : Store) :
    (request.isUpToDate output).run.outcome store = (.ok false, store) := by
  rw [isUpToDate, if_pos hforce]
  rfl

theorem outcome_isUpToDate (hforce : request.force = false) (store : Store) :
    (request.isUpToDate output).run.outcome store =
      (((((Freshness.check request.gate request.input output).run store).value.mapError
        GenerationError.artifact).map fun freshness => decide (freshness = .upToDate)), store) := by
  rw [isUpToDate, hforce, if_neg Bool.false_ne_true, outcome_bind, Program.outcome_orThrow,
    (Freshness.looks_check _ _ _).store_run]
  cases ((Freshness.check request.gate request.input output).run store).value <;> rfl

theorem store_isUpToDate (request : GenerationRequest) (output : Path) (store : Store) :
    ((request.isUpToDate output).run.outcome store).2 = store := by
  cases hforce : request.force with
  | false => rw [outcome_isUpToDate hforce]
  | true => rw [outcome_isUpToDate_of_force hforce]

theorem isUpToDate_eq_true :
    ((request.isUpToDate output).run.outcome store).1 = .ok true ↔
      request.force = false ∧
        ((Freshness.check request.gate request.input output).run store).value = .ok .upToDate := by
  cases hforce : request.force with
  | true => simp [outcome_isUpToDate_of_force hforce]
  | false =>
      rw [outcome_isUpToDate hforce]
      cases ((Freshness.check request.gate request.input output).run store).value with
      | error error => simp [Except.mapError, Except.map]
      | ok freshness => simp [Except.mapError, Except.map]

theorem outcome_inputExists (request : GenerationRequest) (store : Store) :
    request.inputExists.run.outcome store =
      (match store.modified request.input with
        | .ok _ => .ok ()
        | .error _ => .error (.missingInput request.input), store) := by
  change Program.outcome (ExceptT.run (if (store.modified request.input).toOption.isSome = true
    then pure () else throw (.missingInput request.input) : Step Unit)) store = _
  cases store.modified request.input <;> rfl

theorem outcome_regenerate_of_error {error : GenerationError}
    (hprepare : (request.prepare.run.run store).value = .error error) :
    request.regenerate.run.outcome store = (.error error, store) := by
  rw [regenerate_eq, outcome_bind, Program.outcome, request.reads_prepare.looks.store_run, hprepare]

theorem outcome_regenerate_of_none (houtput : request.output = none) {text : String}
    {selected : Selected}
    (hprepare : (request.prepare.run.run store).value = .ok (text, selected)) :
    request.regenerate.run.outcome store =
      (.ok (.rendered text selected.types.length selected.findings), store) := by
  rw [regenerate_eq, outcome_bind, Program.outcome, request.reads_prepare.looks.store_run, hprepare,
    houtput]
  rfl

theorem outcome_regenerate_of_some (houtput : request.output = some output) {text : String}
    {selected : Selected}
    (hprepare : (request.prepare.run.run store).value = .ok (text, selected)) :
    request.regenerate.run.outcome store =
      match store.write output text.toUTF8 with
      | .error error => (.error (.artifact (.unwritable output error)), store)
      | .ok later => (.ok (.written output selected.types.length selected.findings), later) := by
  rw [regenerate_eq, outcome_bind, Program.outcome, request.reads_prepare.looks.store_run, hprepare,
    houtput]
  dsimp only
  rw [outcome_bind, write, Program.outcome_orThrow, writeArtifact, Program.run]
  cases store.write output text.toUTF8 <;> rfl

-- How a run can end, and what it leaves of the store.
inductive Ends (request : GenerationRequest) (store : Store) :
    Except GenerationError Generated → Store → Prop
  | failed (error : GenerationError) : Ends request store (.error error) store
  | skipped {output : Path} (houtput : request.output = some output)
      (hforce : request.force = false)
      (hfresh : ((Freshness.check request.gate request.input output).run store).value =
        .ok .upToDate) :
      Ends request store (.ok (.skipped output)) store
  | rendered {text : String} {selected : Selected} (houtput : request.output = none)
      (hrenders : request.Renders store text selected) :
      Ends request store (.ok (.rendered text selected.types.length selected.findings)) store
  | written {output : Path} {text : String} {selected : Selected} {later : Store}
      (houtput : request.output = some output) (hrenders : request.Renders store text selected)
      (hwrite : store.write output text.toUTF8 = .ok later) :
      Ends request store
        (.ok (.written output selected.types.length selected.findings)) later

theorem ends_regenerate (request : GenerationRequest) (store : Store) :
    Ends request store (request.regenerate.run.outcome store).1
      (request.regenerate.run.outcome store).2 := by
  cases hprepare : (request.prepare.run.run store).value with
  | error error =>
      rw [outcome_regenerate_of_error hprepare]
      exact .failed error
  | ok made =>
      obtain ⟨text, selected⟩ := made
      have hrenders := prepare_eq_ok.mp hprepare
      cases houtput : request.output with
      | none =>
          rw [outcome_regenerate_of_none houtput hprepare]
          exact .rendered houtput hrenders
      | some output =>
          rw [outcome_regenerate_of_some houtput hprepare]
          cases hwrite : store.write output text.toUTF8 with
          | error error => exact .failed _
          | ok later => exact .written houtput hrenders hwrite

theorem outcome_steps_of_none (houtput : request.output = none) (store : Store) :
    request.steps.run.outcome store =
      match store.modified request.input with
      | .ok _ => request.regenerate.run.outcome store
      | .error _ => (.error (.missingInput request.input), store) := by
  rw [steps, outcome_bind, outcome_inputExists, houtput]
  cases store.modified request.input <;> rfl

theorem outcome_steps_of_some (houtput : request.output = some output) (store : Store) :
    request.steps.run.outcome store =
      match store.modified request.input with
      | .ok _ =>
        match ((request.isUpToDate output).run.outcome store).1 with
        | .ok true => (.ok (.skipped output), store)
        | .ok false => request.regenerate.run.outcome store
        | .error error => (.error error, store)
      | .error _ => (.error (.missingInput request.input), store) := by
  rw [steps, outcome_bind, outcome_inputExists, houtput]
  cases store.modified request.input with
  | error error => rfl
  | ok modified =>
      have hstore := store_isUpToDate request output store
      dsimp only
      rw [outcome_bind]
      generalize (request.isUpToDate output).run.outcome store = result at hstore ⊢
      obtain ⟨error | fresh, later⟩ := result
      · obtain rfl : later = store := hstore
        rfl
      · obtain rfl : later = store := hstore
        cases fresh <;> rfl

theorem ends_generate (request : GenerationRequest) (store : Store) :
    Ends request store (request.generate.run store).value (request.generate.run store).store := by
  change Ends request store (request.steps.run.outcome store).1
    (request.steps.run.outcome store).2
  have hregenerate := ends_regenerate request store
  cases houtput : request.output with
  | none =>
      rw [outcome_steps_of_none houtput]
      cases store.modified request.input with
      | error error => exact .failed _
      | ok modified => exact hregenerate
  | some output =>
      rw [outcome_steps_of_some houtput]
      cases store.modified request.input with
      | error error => exact .failed _
      | ok modified =>
          dsimp only
          cases hfresh : ((request.isUpToDate output).run.outcome store).1 with
          | error error => exact .failed error
          | ok fresh =>
              cases fresh with
              | false => exact hregenerate
              | true =>
                  obtain ⟨hforce, hcheck⟩ := isUpToDate_eq_true.mp hfresh
                  exact .skipped houtput hforce hcheck

theorem generate_of_recorded (hgate : request.gate = .contentHash)
    (houtput : request.output = some output) (hforce : request.force = false)
    (h : Freshness.Recorded store request.input output) :
    request.generate.outcome store = (.ok (.skipped output), store) := by
  have ⟨_, _, hread, _, _⟩ := h
  obtain ⟨modified, hmodified⟩ := Store.modified_of_read hread
  have hcheck : ((Freshness.check request.gate request.input output).run store).value =
      .ok .upToDate := by
    rw [hgate]
    exact Freshness.check_eq_upToDate.mpr h
  change request.steps.run.outcome store = _
  rw [outcome_steps_of_some houtput, hmodified, isUpToDate_eq_true.mpr ⟨hforce, hcheck⟩]

theorem generate_of_makes (houtput : request.output = some output) (hforce : request.force = true)
    {bytes : ByteArray} {text : String} {selected : Selected}
    (hread : store.read request.input = .ok bytes) (hmakes : request.Makes bytes text selected)
    (hwrite : store.write output text.toUTF8 = .ok later) :
    request.generate.outcome store =
      (.ok (.written output selected.types.length selected.findings), later) := by
  obtain ⟨modified, hmodified⟩ := Store.modified_of_read hread
  change request.steps.run.outcome store = _
  rw [outcome_steps_of_some houtput, hmodified, outcome_isUpToDate_of_force hforce]
  dsimp only
  rw [outcome_regenerate_of_some houtput (hmakes.value_prepare hread), hwrite]

-- A run changes no file, unless it says that it has written its output. Then nothing but the
-- output has changed, and that is the artifact of the source as it was.
theorem generate_changes_only_output (request : GenerationRequest) (store : Store) :
    let ran := request.generate.run store
    match ran.value with
    | .ok (.written output types findings) =>
      request.output = some output ∧
        ∃ text selected location, request.Renders store text selected ∧
          types = selected.types.length ∧ findings = selected.findings ∧
          ran.store.read output = .ok (String.toUTF8 text) ∧
          output.place = .inside location ∧
          ∀ other ≠ location, ran.store.file? other = store.file? other
    | .error (.artifact (.unwritable _ _)) => True
    | _ => ran.store = store := by
  have hends := ends_generate request store
  dsimp only
  generalize (request.generate.run store).value = value at hends ⊢
  generalize (request.generate.run store).store = later at hends ⊢
  cases hends with
  | failed error => split <;> trivial
  | skipped houtput hforce hfresh => rfl
  | rendered houtput hrenders => rfl
  | @written output text selected _ houtput hrenders hwrite =>
      obtain ⟨location, hlocation, hfiles⟩ := Store.file?_write hwrite
      exact ⟨houtput, text, selected, location, hrenders, rfl, rfl, Store.read_write hwrite,
        hlocation, hfiles⟩

end Running

end GenerationRequest

end Reflection
