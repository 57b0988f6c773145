import Reflection.Proofs.Generation.Sessions

namespace Reflection

open Relation (ReflTransGen)

-- Another process replaces the contents of a file.
def Store.Replaces (path : Path) (store later : Store) : Prop :=
  ∃ bytes, store.write path bytes = .ok later

namespace GenerationRequest

variable {α β : Type} {others : Store → Store → Prop} {store later : Store}

section Phases

variable {request : GenerationRequest} {output : Path}

theorem among_bind {step : Step α} {next : α → Step β} {value : β} :
    (step >>= next).run.Among others store (.ok value) later ↔
      ∃ first between, step.run.Among others store (.ok first) between ∧
        (next first).run.Among others between (.ok value) later := by
  refine Program.among_bind.trans ⟨?_, ?_⟩
  · rintro ⟨first | first, between, hfirst, hnext⟩
    · cases (Program.among_done.mp hnext).1
    · exact ⟨first, between, hfirst, hnext⟩
  · rintro ⟨first, between, hfirst, hnext⟩
    exact ⟨.ok first, between, hfirst, hnext⟩

theorem among_pure {value result : α} :
    (pure value : Step α).run.Among others store (.ok result) later ↔
      value = result ∧ ReflTransGen others store later :=
  Program.among_done.trans (and_congr_left fun _ => by rw [Except.ok.injEq])

theorem looks_inputExists (request : GenerationRequest) : request.inputExists.run.Looks := by
  intro answer
  change Program.Looks (ExceptT.run (if answer.toOption.isSome = true then pure ()
    else throw (.missingInput request.input) : Step Unit))
  split <;> trivial

theorem looks_isUpToDate (request : GenerationRequest) (output : Path) :
    (request.isUpToDate output).run.Looks := by
  unfold isUpToDate
  split
  · trivial
  · exact looks_bind ((Freshness.looks_check _ _ _).orThrow _) fun _ => trivial

-- The declarations of these contents of the source, as they are selected.
def Declares (request : GenerationRequest) (bytes : ByteArray) (selected : Selected) : Prop :=
  ∃ store tree, store.read request.input = .ok bytes ∧
    ((Source.load request.parsing request.input).run store).value = .ok tree ∧
    (tree.select request.selection).outcome = .ok selected

theorem Declares.of_read {bytes : ByteArray} {selected : Selected}
    (h : request.Declares bytes selected) (hread : store.read request.input = .ok bytes) :
    ∃ tree, ((Source.load request.parsing request.input).run store).value = .ok tree ∧
      (tree.select request.selection).outcome = .ok selected := by
  obtain ⟨other, tree, hother, htree, hselected⟩ := h
  have hsame := (Source.readsOnce_load request.parsing request.input).reads.value_run
    (hread.trans hother.symm)
  exact ⟨tree, hsame.trans htree, hselected⟩

theorem Declares.makes (hgate : request.gate = .contentHash) {bytes : ByteArray}
    {selected : Selected} (h : request.Declares bytes selected) :
    request.Makes bytes (request.render (some (sourceHash bytes)) selected) selected := by
  obtain ⟨store, tree, hread, htree, hselected⟩ := h
  refine ⟨store, hread, prepare_eq_ok.mpr ⟨tree, some (sourceHash bytes), htree, hselected, ?_,
    rfl⟩⟩
  rw [digestOf, hgate, hread]
  rfl

theorem exists_bytes_of_load {tree : DeclarationTree}
    (h : ((Source.load request.parsing request.input).run store).value = .ok tree) :
    ∃ bytes, store.read request.input = .ok bytes := by
  cases hread : store.read request.input with
  | ok bytes => exact ⟨bytes, rfl⟩
  | error error =>
      rw [Source.load, Program.run_textOf_bind, hread] at h
      cases h

theorem load_among {tree : DeclarationTree} :
    request.load.run.Among others store (.ok tree) later ↔
      ∃ moment, ReflTransGen others store moment ∧
        ((Source.load request.parsing request.input).run moment).value = .ok tree ∧
        ReflTransGen others moment later := by
  refine request.readsOnce_load.among_iff.trans (exists_congr fun moment => ?_)
  have hvalue : (request.load.run.run moment).value = _ :=
    congrArg Prod.fst (request.outcome_load moment)
  rw [hvalue]
  cases ((Source.load request.parsing request.input).run moment).value <;> simp [Except.mapError]

theorem select_among {tree : DeclarationTree} {selected : Selected} :
    (request.select tree).run.Among others store (.ok selected) later ↔
      (tree.select request.selection).outcome = .ok selected ∧
        ReflTransGen others store later := by
  refine ((request.silent_select tree).among_iff store).trans (and_congr_left fun _ => ?_)
  have hvalue : ((request.select tree).run.run store).value = _ :=
    congrArg Prod.fst (request.outcome_select tree store)
  rw [hvalue]
  cases (tree.select request.selection).outcome <;> simp [Except.mapError]

theorem digest_among (hgate : request.gate = .contentHash) {hash : Option String} :
    request.digest.run.Among others store (.ok hash) later ↔
      ∃ moment bytes, ReflTransGen others store moment ∧ moment.read request.input = .ok bytes ∧
        hash = some (sourceHash bytes) ∧ ReflTransGen others moment later := by
  refine (readsOnce_digest hgate).among_iff.trans (exists_congr fun moment => ?_)
  have hvalue : (request.digest.run.run moment).value = _ :=
    congrArg Prod.fst (request.outcome_digest moment)
  rw [hvalue, digestOf, hgate]
  cases moment.read request.input with
  | error error => simp [Except.mapError, Except.map]
  | ok bytes => simp [Except.mapError, Except.map, eq_comm]

theorem write_among {text : String} :
    (write output text).run.Among others store (.ok ()) later ↔
      ∃ moment written, ReflTransGen others store moment ∧
        moment.write output text.toUTF8 = .ok written ∧ ReflTransGen others written later := by
  refine Program.among_write.trans (exists_congr fun moment => ?_)
  cases moment.write output text.toUTF8 with
  | error error =>
      refine ⟨fun ⟨_, hrest⟩ => ?_, nofun⟩
      cases (Program.among_done.mp hrest).1
  | ok written =>
      constructor
      · rintro ⟨hmoment, hrest⟩
        exact ⟨written, hmoment, rfl, (Program.among_done.mp hrest).2⟩
      · rintro ⟨found, hmoment, hwrite, hlater⟩
        cases hwrite
        exact ⟨hmoment, Program.among_done.mpr ⟨rfl, hlater⟩⟩

-- The source is there, and the gate does not stop the run.
def Opens (request : GenerationRequest) (others : Store → Store → Prop) (output : Path)
    (store opened : Store) : Prop :=
  ∃ found, request.inputExists.run.Among others store (.ok ()) found ∧
    (request.isUpToDate output).run.Among others found (.ok false) opened

theorem Opens.changes {opened : Store} (h : request.Opens others output store opened) :
    ReflTransGen others store opened := by
  obtain ⟨found, hfound, hopened⟩ := h
  exact (request.looks_inputExists.changes hfound).trans
    ((request.looks_isUpToDate output).changes hopened)

-- What the output holds is written: the declarations of the source as it was loaded, with the
-- digest of the source as it was read again.
inductive Writes (request : GenerationRequest) (others : Store → Store → Prop) (output : Path)
    (store : Store) (first second : ByteArray) (selected : Selected) : Store → Prop
  | intro {loaded hashed moment written later : Store}
      (hloaded : ReflTransGen others store loaded) (hfirst : loaded.read request.input = .ok first)
      (hdeclares : request.Declares first selected)
      (hhashed : ReflTransGen others loaded hashed)
      (hsecond : hashed.read request.input = .ok second)
      (hmoment : ReflTransGen others hashed moment)
      (hwrite : moment.write output
        (request.render (some (sourceHash second)) selected).toUTF8 = .ok written)
      (hlater : ReflTransGen others written later) :
      Writes request others output store first second selected later

theorem regenerate_among (hgate : request.gate = .contentHash) {types : Nat}
    {findings : List Finding} :
    request.regenerate.run.Among others store (.ok (.written output types findings)) later ↔
      request.output = some output ∧ ∃ first second selected,
        request.Writes others output store first second selected later ∧
        types = selected.types.length ∧ findings = selected.findings := by
  constructor
  · intro h
    obtain ⟨tree, _, hload, h⟩ := among_bind.mp h
    obtain ⟨selected, _, hselect, h⟩ := among_bind.mp h
    obtain ⟨hash, _, hdigest, h⟩ := among_bind.mp h
    -- two of the phases read the source, each at a moment of its own
    obtain ⟨loaded, hloaded, htree, hafterLoad⟩ := load_among.mp hload
    obtain ⟨hselected, hafterSelect⟩ := select_among.mp hselect
    obtain ⟨hashed, second, hhashed, hsecond, rfl, hafterHash⟩ := (digest_among hgate).mp hdigest
    obtain ⟨first, hfirst⟩ := exists_bytes_of_load htree
    cases houtput : request.output with
    | none =>
        rw [houtput] at h
        cases (among_pure.mp h).1
    | some path =>
        rw [houtput] at h
        obtain ⟨_, _, hwrite, h⟩ := among_bind.mp h
        obtain ⟨moment, written, hmoment, hwritten, hafterWrite⟩ := write_among.mp hwrite
        obtain ⟨hresult, hlater⟩ := among_pure.mp h
        cases hresult
        exact ⟨rfl, first, second, selected,
          .intro hloaded hfirst ⟨loaded, tree, hfirst, htree, hselected⟩
            (hafterLoad.trans (hafterSelect.trans hhashed)) hsecond (hafterHash.trans hmoment)
            hwritten (hafterWrite.trans hlater), rfl, rfl⟩
  · rintro ⟨houtput, first, second, selected, hwrites, rfl, rfl⟩
    cases hwrites with
    | @intro loaded hashed moment written _ hloaded hfirst hdeclares hhashed hsecond hmoment hwrite
        hlater =>
        obtain ⟨tree, htree, hselected⟩ := hdeclares.of_read hfirst
        refine among_bind.mpr ⟨tree, hashed, load_among.mpr ⟨loaded, hloaded, htree, hhashed⟩, ?_⟩
        refine among_bind.mpr ⟨selected, hashed, select_among.mpr ⟨hselected, .refl⟩, ?_⟩
        refine among_bind.mpr ⟨some (sourceHash second), moment,
          (digest_among hgate).mpr ⟨hashed, second, .refl, hsecond, rfl, hmoment⟩, ?_⟩
        rw [houtput]
        refine among_bind.mpr ⟨(), later, write_among.mpr ⟨moment, written, .refl, hwrite, hlater⟩,
          ?_⟩
        exact among_pure.mpr ⟨rfl, .refl⟩

-- Only a run that the gate lets through writes anything.
theorem generate_among (hgate : request.gate = .contentHash) {types : Nat}
    {findings : List Finding} :
    request.generate.Among others store (.ok (.written output types findings)) later ↔
      request.output = some output ∧ ∃ opened first second selected,
        request.Opens others output store opened ∧
        request.Writes others output opened first second selected later ∧
        types = selected.types.length ∧ findings = selected.findings := by
  constructor
  · intro h
    obtain ⟨_, found, hfound, h⟩ := among_bind.mp h
    cases houtput : request.output with
    | none =>
        rw [houtput] at h
        cases houtput.symm.trans ((regenerate_among hgate).mp h).1
    | some path =>
        rw [houtput] at h
        obtain ⟨fresh, opened, hopened, h⟩ := among_bind.mp h
        cases fresh with
        | true =>
            obtain ⟨_, _, _, h⟩ := among_bind.mp h
            cases (among_pure.mp h).1
        | false =>
            obtain ⟨hsame, first, second, selected, hwrites⟩ := (regenerate_among hgate).mp h
            cases houtput.symm.trans hsame
            exact ⟨rfl, opened, first, second, selected, ⟨found, hfound, hopened⟩, hwrites⟩
  · rintro ⟨houtput, opened, first, second, selected, ⟨found, hfound, hopened⟩, hwrites⟩
    refine among_bind.mpr ⟨(), found, hfound, ?_⟩
    rw [houtput]
    refine among_bind.mpr ⟨false, opened, hopened, ?_⟩
    exact (regenerate_among hgate).mpr ⟨houtput, first, second, selected, hwrites⟩

theorem Writes.before {opened : Store} {first second : ByteArray} {selected : Selected}
    (h : ReflTransGen others store opened)
    (hwrites : request.Writes others output opened first second selected later) :
    request.Writes others output store first second selected later := by
  cases hwrites with
  | intro hloaded hfirst hdeclares hhashed hsecond hmoment hwrite hlater =>
      exact .intro (h.trans hloaded) hfirst hdeclares hhashed hsecond hmoment hwrite hlater

-- However others interfere with a run that writes its output, the output records the digest of the
-- source as it was read last. This is the digest of the contents that it was generated from if and
-- only if both readings have the same digest, and the output is taken for up to date as long as the
-- source has the digest of the last one.
theorem records_last_reading (hgate : request.gate = .contentHash)
    (hname : '\n' ∉ (sourceName request.input).toList) {types : Nat} {findings : List Finding}
    (hrun : request.generate.Among others store (.ok (.written output types findings)) later) :
    ∃ first second selected,
      request.Writes others output store first second selected later ∧
      types = selected.types.length ∧ findings = selected.findings ∧
      let text := request.render (some (sourceHash second)) selected
      recordedHash text.toList = some (sourceHash second).toList ∧
      (recordedHash text.toList = some (sourceHash first).toList ↔
        sourceHash first = sourceHash second) ∧
      ∀ now : Store, now.read output = .ok text.toUTF8 →
        (((Freshness.check .contentHash request.input output).run now).value = .ok .upToDate ↔
          ∃ bytes, now.read request.input = .ok bytes ∧ sourceHash bytes = sourceHash second) := by
  obtain ⟨_, opened, first, second, selected, hopens, hwrites, htypes, hfindings⟩ :=
    (generate_among hgate).mp hrun
  have hrecorded := recordedHash_render_some hname second selected
  refine ⟨first, second, selected, hwrites.before hopens.changes, htypes, hfindings, hrecorded, ?_,
    fun now hnow => ?_⟩
  · rw [hrecorded, Option.some.injEq, String.toList_inj]
    exact eq_comm
  · exact Freshness.check_eq_upToDate_iff hnow hrecorded

end Phases

section Replaced

open Session (headerRequest headerStore renders_headerStore)

-- A header with a type in it.
def typeHeader : String := "struct [[refl]] S {};"

theorem typeHeader_types :
    (Header.parse .tolerant (Header.expand [] typeHeader.toList)).toOption.bind (fun parsed =>
      (parsed.tree.select .default).outcome.toOption.map fun selected =>
        (selected.types.length, selected.findings)) = some (1, []) := by
  decide +kernel

theorem sourceHash_typeHeader_ne : sourceHash typeHeader.toUTF8 ≠ sourceHash "".toUTF8 := by
  decide +kernel

theorem declares_empty : headerRequest.Declares "".toUTF8 ⟨[], []⟩ := by
  obtain ⟨_, tree, _, htree, hselected, _⟩ := renders_headerStore
  exact ⟨headerStore, tree, rfl, htree, hselected⟩

theorem opens_headerStore :
    headerRequest.Opens (Store.Replaces headerRequest.input) ⟨"b.h"⟩ headerStore headerStore :=
  ⟨headerStore, Program.among_run _ headerRequest.inputExists.run headerStore,
    Program.among_run _ (headerRequest.isUpToDate ⟨"b.h"⟩).run headerStore⟩

-- The header is replaced after it has been loaded, and before it is hashed.
theorem exists_replaced : ∃ later,
    headerRequest.generate.Among (Store.Replaces headerRequest.input) headerStore
      (.ok (.written ⟨"b.h"⟩ 0 [])) later ∧
    later.read headerRequest.input = .ok typeHeader.toUTF8 ∧
    later.read ⟨"b.h"⟩ =
      .ok (headerRequest.render (some (sourceHash typeHeader.toUTF8)) ⟨[], []⟩).toUTF8 := by
  generalize htext : headerRequest.render (some (sourceHash typeHeader.toUTF8)) ⟨[], []⟩ = text
  obtain ⟨replaced, later, hreplace, hsource, hwrite, hlater, houtput⟩ : ∃ replaced later,
      headerStore.write headerRequest.input typeHeader.toUTF8 = .ok replaced ∧
      replaced.read headerRequest.input = .ok typeHeader.toUTF8 ∧
      replaced.write ⟨"b.h"⟩ text.toUTF8 = .ok later ∧
      later.read headerRequest.input = .ok typeHeader.toUTF8 ∧
      later.read ⟨"b.h"⟩ = .ok text.toUTF8 :=
    ⟨_, _, rfl, rfl, rfl, rfl, rfl⟩
  have hwrites : headerRequest.Writes (Store.Replaces headerRequest.input) ⟨"b.h"⟩ headerStore
      "".toUTF8 typeHeader.toUTF8 ⟨[], []⟩ later := by
    rw [← htext] at hwrite
    exact .intro .refl rfl declares_empty (.single ⟨_, hreplace⟩) hsource .refl hwrite .refl
  exact ⟨later, (generate_among rfl).mpr ⟨rfl, headerStore, _, _, _, opens_headerStore, hwrites,
    rfl, rfl⟩, hlater, houtput⟩

theorem records_last_reading_replaced : ∃ later,
    headerRequest.generate.Among (Store.Replaces headerRequest.input) headerStore
      (.ok (.written ⟨"b.h"⟩ 0 [])) later ∧
    '\n' ∉ (sourceName headerRequest.input).toList ∧
    ∃ first second selected,
      headerRequest.Writes (Store.Replaces headerRequest.input) ⟨"b.h"⟩ headerStore first second
        selected later ∧ selected.types.length = 0 ∧
      recordedHash (headerRequest.render (some (sourceHash second)) selected).toList =
        some (sourceHash second).toList := by
  obtain ⟨later, hrun, -, -⟩ := exists_replaced
  have hname : '\n' ∉ (sourceName headerRequest.input).toList := by decide
  obtain ⟨first, second, selected, hwrites, htypes, -, hrecorded, -⟩ :=
    records_last_reading rfl hname hrun
  exact ⟨later, hrun, hname, first, second, selected, hwrites, htypes.symm, hrecorded⟩

theorem declares_typeHeader : ∃ selected, headerRequest.Declares typeHeader.toUTF8 selected ∧
    selected.types.length = 1 ∧ selected.findings = [] := by
  obtain ⟨parsed, hparsed, hselection⟩ := Option.bind_eq_some_iff.mp typeHeader_types
  obtain ⟨selected, hselected, hcounts⟩ := Option.map_eq_some_iff.mp hselection
  obtain ⟨htypes, hfindings⟩ := Prod.mk.inj hcounts
  have hparse : Header.parse headerRequest.parsing.mode
      (Header.expand headerRequest.parsing.macros typeHeader.toList) = .ok parsed :=
    eq_ok_of_toOption hparsed
  have hread : ((Store.empty 0).set [['a', '.', 'h']] (.file typeHeader.toUTF8 0)).read
      headerRequest.input = .ok typeHeader.toUTF8 := rfl
  have hload := Source.value_load_of_parse hread (by decide) hparse
  exact ⟨selected, ⟨_, parsed.tree, hread, hload, eq_ok_of_toOption hselected⟩, htypes, hfindings⟩

-- The output declares nothing and yet it is taken for up to date, for it records the digest of a
-- header from which a forced run generates a type.
theorem not_records_replaced : ∃ later text,
    headerRequest.generate.Among (Store.Replaces headerRequest.input) headerStore
      (.ok (.written ⟨"b.h"⟩ 0 [])) later ∧
    later.read ⟨"b.h"⟩ = .ok (String.toUTF8 text) ∧
    (headerRequest.Declares "".toUTF8 ⟨[], []⟩ ∧
      ∃ hash, text = headerRequest.render hash ⟨[], []⟩) ∧
    recordedHash text.toList = some (sourceHash typeHeader.toUTF8).toList ∧
    recordedHash text.toList ≠ some (sourceHash "".toUTF8).toList ∧
    ((Freshness.check .contentHash headerRequest.input ⟨"b.h"⟩).run later).value =
      .ok .upToDate ∧
    ({ headerRequest with force := true }.generate.run later).value =
      .ok (.written ⟨"b.h"⟩ 1 []) := by
  obtain ⟨later, hrun, hsource, houtput⟩ := exists_replaced
  have hrecorded := @recordedHash_render_some headerRequest (by decide) typeHeader.toUTF8 ⟨[], []⟩
  obtain ⟨selected, hdeclares, htypes, hfindings⟩ := declares_typeHeader
  obtain ⟨final, hwrite⟩ := Store.write_of_read houtput
    (headerRequest.render (some (sourceHash typeHeader.toUTF8)) selected).toUTF8
  have hforced := @generate_of_makes later final { headerRequest with force := true } ⟨"b.h"⟩ rfl
    rfl typeHeader.toUTF8 _ selected hsource (hdeclares.makes rfl) hwrite
  refine ⟨later, _, hrun, houtput, ⟨declares_empty, _, rfl⟩, hrecorded, fun h => ?_, ?_, ?_⟩
  · rw [hrecorded] at h
    exact sourceHash_typeHeader_ne (String.toList_inj.mp (Option.some.inj h))
  · exact (Freshness.check_eq_upToDate_iff houtput hrecorded).mpr ⟨_, hsource, rfl⟩
  · rw [← htypes, ← hfindings]
    exact congrArg Prod.fst hforced

end Replaced

end GenerationRequest

end Reflection
