import Reflection.Proofs.Generation.Runs
import Reflection.Proofs.Header.Steps

namespace Reflection

-- Nothing but a run of the generator writes the output; so the source lies elsewhere, however both
-- paths are spelled.
inductive Action where
  | replaceSource (bytes : ByteArray)
  | touchSource (modified : Timestamp)
  | touchOutput (modified : Timestamp)
  | removeOutput
  | generate (force : Bool)

-- In a session the source changes, files are touched, the output is removed and the generator runs,
-- in any order.
structure Session where
  store : Store
  -- the contents that the source has had
  seen : List ByteArray
  -- those that the output was written from last
  written : Option ByteArray

namespace Session

def start (request : GenerationRequest) (store : Store) : Session :=
  ⟨store, (store.read request.input).toOption.toList, none⟩

def run (request : GenerationRequest) (force : Bool) (session : Session) :
    Ran (Except GenerationError Generated) :=
  { request with force }.generate.run session.store

-- A change that fails leaves the store as it is.
def change (session : Session) : Except FileError Store → Session
  | .ok store => { session with store }
  | .error _ => session

def replaceSource (session : Session) (bytes : ByteArray) : Except FileError Store → Session
  | .ok store => { session with store, seen := bytes :: session.seen }
  | .error _ => session

def generate (session : Session) (source : Except FileError ByteArray) :
    Except GenerationError Generated → Store → Session
  | .ok (.written _ _ _), store => { session with store, written := source.toOption }
  | _, store => { session with store }

def act (request : GenerationRequest) (output : Path) (session : Session) : Action → Session
  | .replaceSource bytes =>
    session.replaceSource bytes (session.store.write request.input bytes)
  | .touchSource modified => session.change (session.store.touch request.input modified)
  | .touchOutput modified => session.change (session.store.touch output modified)
  | .removeOutput => session.change (session.store.remove output)
  | .generate force =>
    let ran := session.run request force
    session.generate (session.store.read request.input) ran.value ran.store

def after (request : GenerationRequest) (output : Path) (store : Store) (actions : List Action) :
    Session :=
  actions.foldl (act request output) (start request store)

variable {request : GenerationRequest} {output : Path} {session : Session} {store later : Store}

-- What the output holds was made from contents that the source has had.
structure Sound (request : GenerationRequest) (output : Path) (session : Session) : Prop where
  source : ∀ bytes, session.store.read request.input = .ok bytes → bytes ∈ session.seen
  output : ∀ entry, session.store.lookup output = .ok entry →
    ∃ bytes text selected, entry.bytes? = some (String.toUTF8 text) ∧
      session.written = some bytes ∧ bytes ∈ session.seen ∧ request.Makes bytes text selected

theorem sound_start (habsent : ∀ entry, store.lookup output ≠ .ok entry) :
    Sound request output (start request store) := by
  refine ⟨fun bytes hread => ?_, fun entry hlookup => absurd hlookup (habsent entry)⟩
  have hread : store.read request.input = .ok bytes := hread
  simp [start, hread, Except.toOption]

theorem Sound.change (h : Sound request output session) {result : Except FileError Store}
    (hkeeps : ∀ later, result = .ok later → Store.Keeps (fun _ => False) session.store later) :
    Sound request output (session.change result) := by
  cases result with
  | error error => exact h
  | ok later =>
      have hkeeps := hkeeps later rfl
      refine ⟨fun bytes hread => h.source bytes (hkeeps.read (fun _ _ => id) hread),
        fun entry hlookup => ?_⟩
      obtain ⟨before, hbefore, hbytes⟩ := hkeeps.lookup (fun _ _ => id) hlookup
      rw [← hbytes]
      exact h.output before hbefore

theorem Sound.replaceSource (h : Sound request output session)
    (hplace : request.input.place ≠ output.place) (bytes : ByteArray) :
    Sound request output (session.act request output (.replaceSource bytes)) := by
  unfold act
  dsimp only
  cases hwrite : session.store.write request.input bytes with
  | error error => exact h
  | ok later =>
      obtain ⟨location, hlocation, hkeeps, _⟩ := Store.keeps_write hwrite
      refine ⟨fun found hread => ?_, fun entry hlookup => ?_⟩
      · have hread : later.read request.input = .ok found := hread
        rw [Store.read_write hwrite] at hread
        cases hread
        exact List.mem_cons_self
      · obtain ⟨before, hbefore, hbytes⟩ := hkeeps.lookup
          (fun other hother heq => hplace (by rw [hlocation, hother, heq])) hlookup
        obtain ⟨found, text, selected, htext, hwritten, hseen, hmakes⟩ := h.output before hbefore
        exact ⟨found, text, selected, hbytes ▸ htext, hwritten, List.mem_cons_of_mem _ hseen,
          hmakes⟩

-- How a run of a session ends, as far as it shows in the source and the output.
inductive RunEnds (request : GenerationRequest) (output : Path) (store : Store) :
    Except GenerationError Generated → Store → Prop
  | failed (error : GenerationError) : RunEnds request output store (.error error) store
  | skipped (hrecorded : Freshness.Recorded store request.input output) :
      RunEnds request output store (.ok (.skipped output)) store
  | written {bytes : ByteArray} {text : String} {selected : Selected} {later : Store}
      (hread : store.read request.input = .ok bytes) (hmakes : request.Makes bytes text selected)
      (hwrite : store.write output text.toUTF8 = .ok later) :
      RunEnds request output store
        (.ok (.written output selected.types.length selected.findings)) later

theorem runEnds (hgate : request.gate = .contentHash) (houtput : request.output = some output)
    (session : Session) (force : Bool) :
    RunEnds request output session.store (session.run request force).value
      (session.run request force).store := by
  have hends := GenerationRequest.ends_generate { request with force } session.store
  unfold run
  generalize (GenerationRequest.generate { request with force }).run session.store = ran at hends ⊢
  obtain ⟨value, notices, later⟩ := ran
  cases hends with
  | failed error => exact .failed error
  | skipped hsome _ hfresh =>
      cases houtput.symm.trans hsome
      rw [hgate] at hfresh
      exact .skipped (Freshness.check_eq_upToDate.mp hfresh)
  | rendered hnone _ => cases houtput.symm.trans hnone
  | written hsome hrenders hwrite =>
      cases houtput.symm.trans hsome
      obtain ⟨bytes, hread, _⟩ := hrenders.exists_bytes hgate
      exact .written hread ⟨_, hread, GenerationRequest.prepare_eq_ok.mpr hrenders⟩ hwrite

theorem Sound.generate (h : Sound request output session) (hgate : request.gate = .contentHash)
    (houtput : request.output = some output) (hplace : request.input.place ≠ output.place)
    (force : Bool) : Sound request output (session.act request output (.generate force)) := by
  have hends := runEnds hgate houtput session force
  unfold act
  dsimp only
  generalize (session.run request force).value = value at hends ⊢
  generalize (session.run request force).store = later at hends ⊢
  cases hends with
  | failed error => exact h
  | skipped hrecorded => exact h
  | @written bytes text selected _ hread hmakes hwrite =>
      obtain ⟨location, hlocation, hkeeps, _⟩ := Store.keeps_write hwrite
      refine ⟨fun found hfound => ?_, fun entry hlookup => ?_⟩
      · exact h.source found (hkeeps.read
          (fun other hother heq => hplace (by rw [hlocation, hother, heq])) hfound)
      · obtain ⟨modified, hfile⟩ := Store.read_eq_ok.mp (Store.read_write hwrite)
        cases hfile.symm.trans hlookup
        exact ⟨bytes, text, selected, rfl, by simp [Session.generate, hread, Except.toOption],
          h.source bytes hread, hmakes⟩

theorem Sound.act (h : Sound request output session) (hgate : request.gate = .contentHash)
    (houtput : request.output = some output) (hplace : request.input.place ≠ output.place)
    (action : Action) : Sound request output (session.act request output action) := by
  cases action with
  | replaceSource bytes => exact h.replaceSource hplace bytes
  | touchSource modified => exact h.change fun _ => Store.keeps_touch
  | touchOutput modified => exact h.change fun _ => Store.keeps_touch
  | removeOutput => exact h.change fun _ => Store.keeps_remove
  | generate force => exact h.generate hgate houtput hplace force

theorem sound_after (hgate : request.gate = .contentHash) (houtput : request.output = some output)
    (hplace : request.input.place ≠ output.place)
    (habsent : ∀ entry, store.lookup output ≠ .ok entry) (actions : List Action) :
    Sound request output (after request output store actions) := by
  unfold after
  have hstart := @sound_start request output store habsent
  generalize start request store = session at hstart
  induction actions generalizing session with
  | nil => exact hstart
  | cons action actions ih => exact ih _ (hstart.act hgate houtput hplace action)

-- A run is skipped if and only if the artifact records the digest of the source.
theorem skipped_iff_recorded (hgate : request.gate = .contentHash)
    (houtput : request.output = some output) :
    (∃ path, (session.run request false).value = .ok (.skipped path)) ↔
      Freshness.Recorded session.store request.input output := by
  constructor
  · rintro ⟨path, hskipped⟩
    have hends := runEnds hgate houtput session false
    rw [hskipped] at hends
    generalize (session.run request false).store = later at hends
    cases hends with
    | skipped hrecorded => exact hrecorded
  · intro hrecorded
    have houtcome := @GenerationRequest.generate_of_recorded session.store
      { request with force := false } output hgate houtput rfl hrecorded
    exact ⟨output, congrArg Prod.fst houtcome⟩

theorem Sound.read_output (h : Sound request output session) {entry : Entry} {bytes : ByteArray}
    (hlookup : session.store.lookup output = .ok entry) (hwritten : session.written = some bytes) :
    ∃ text selected, session.store.read output = .ok (String.toUTF8 text) ∧
      request.Makes bytes text selected := by
  obtain ⟨origin, text, selected, htext, horigin, _, hmakes⟩ := h.output entry hlookup
  obtain rfl : origin = bytes := Option.some.inj (horigin.symm.trans hwritten)
  cases entry with
  | directory modified => cases htext
  | file found modified =>
      obtain rfl : found = text.toUTF8 := Option.some.inj htext
      exact ⟨text, selected, Store.read_eq_ok.mpr ⟨modified, hlookup⟩, hmakes⟩

-- Digests that tell the contents of the source apart tell whether the output was written from
-- those it has now.
theorem Sound.recorded_iff (h : Sound request output session) (hgate : request.gate = .contentHash)
    (hname : '\n' ∉ (sourceName request.input).toList)
    (hseen : ∀ first ∈ session.seen, ∀ second ∈ session.seen,
      sourceHash first = sourceHash second → first = second) :
    Freshness.Recorded session.store request.input output ↔
      (∃ entry, session.store.lookup output = .ok entry) ∧
        ∃ bytes, session.store.read request.input = .ok bytes ∧ session.written = some bytes := by
  constructor
  · rintro ⟨bytes, text, hsource, hartifact, hhash⟩
    obtain ⟨modified, hlookup⟩ := Store.read_eq_ok.mp hartifact
    obtain ⟨origin, made, selected, hmade, hwritten, horigin, hmakes⟩ := h.output _ hlookup
    obtain rfl : text = made := String.toByteArray_inj.mp (Option.some.inj hmade)
    have hsame : sourceHash origin = sourceHash bytes := by
      rw [hmakes.recordedHash_eq hgate hname] at hhash
      exact String.toList_inj.mp (Option.some.inj hhash)
    obtain rfl := hseen origin horigin bytes (h.source bytes hsource) hsame
    exact ⟨⟨_, hlookup⟩, origin, hsource, hwritten⟩
  · rintro ⟨⟨entry, hlookup⟩, bytes, hsource, hwritten⟩
    obtain ⟨text, selected, hartifact, hmakes⟩ := h.read_output hlookup hwritten
    exact ⟨bytes, text, hsource, hartifact, hmakes.recordedHash_eq hgate hname⟩

-- The output is what a forced run makes of the source as it is.
def Current (request : GenerationRequest) (output : Path) (session : Session) : Prop :=
  ∃ (text : String) (types : Nat) (findings : List Finding),
    session.store.read output = .ok text.toUTF8 ∧
    (session.run request true).value = .ok (.written output types findings) ∧
    (session.run request true).store.read output = .ok text.toUTF8

theorem current_of_makes (houtput : request.output = some output) {bytes : ByteArray}
    {text : String} {selected : Selected} (hsource : session.store.read request.input = .ok bytes)
    (hartifact : session.store.read output = .ok text.toUTF8)
    (hmakes : request.Makes bytes text selected) : Current request output session := by
  obtain ⟨later, hwrite⟩ := Store.write_of_read hartifact text.toUTF8
  have houtcome := @GenerationRequest.generate_of_makes session.store later
    { request with force := true } output houtput rfl bytes text selected hsource hmakes hwrite
  refine ⟨text, _, _, hartifact, congrArg Prod.fst houtcome, ?_⟩
  have hlater : (session.run request true).store = later := congrArg Prod.snd houtcome
  rw [hlater]
  exact Store.read_write hwrite

theorem Sound.current (h : Sound request output session) (hgate : request.gate = .contentHash)
    (houtput : request.output = some output) (hplace : request.input.place ≠ output.place)
    (hname : '\n' ∉ (sourceName request.input).toList)
    (hseen : ∀ first ∈ session.seen, ∀ second ∈ session.seen,
      sourceHash first = sourceHash second → first = second)
    {force : Bool} {generated : Generated}
    (hrun : (session.run request force).value = .ok generated) :
    Current request output (session.act request output (.generate force)) := by
  have hends := runEnds hgate houtput session force
  unfold Session.act
  dsimp only
  rw [hrun] at hends ⊢
  generalize (session.run request force).store = later at hends ⊢
  cases hends with
  | skipped hrecorded =>
      obtain ⟨⟨entry, hlookup⟩, bytes, hsource, hwritten⟩ :=
        (h.recorded_iff hgate hname hseen).mp hrecorded
      obtain ⟨text, selected, hartifact, hmakes⟩ := h.read_output hlookup hwritten
      exact current_of_makes houtput hsource hartifact hmakes
  | @written bytes text selected _ hread hmakes hwrite =>
      obtain ⟨location, hlocation, _, hkeeps⟩ := Store.keeps_write hwrite
      have hsource : later.read request.input = .ok bytes := hkeeps.read
        (fun other hother heq => hplace (by rw [hlocation, hother, heq])) hread
      exact current_of_makes houtput hsource (Store.read_write hwrite) hmakes

-- Whatever has happened, a run that succeeds leaves what a forced run would write, and a run that
-- is not forced is skipped if and only if the output is there and was written from the source as
-- it is.
theorem gate_exact (hgate : request.gate = .contentHash) (houtput : request.output = some output)
    (hplace : request.input.place ≠ output.place)
    (hname : '\n' ∉ (sourceName request.input).toList)
    (habsent : ∀ entry, store.lookup output ≠ .ok entry) (actions : List Action)
    (hseen : ∀ first ∈ (after request output store actions).seen,
      ∀ second ∈ (after request output store actions).seen,
        sourceHash first = sourceHash second → first = second) :
    let session := after request output store actions
    (∀ force generated, (session.run request force).value = .ok generated →
      Current request output (session.act request output (.generate force))) ∧
    ((∃ path, (session.run request false).value = .ok (.skipped path)) ↔
      (∃ entry, session.store.lookup output = .ok entry) ∧
        ∃ bytes, session.store.read request.input = .ok bytes ∧ session.written = some bytes) := by
  have hsound := sound_after hgate houtput hplace habsent actions
  refine ⟨fun force generated hrun => ?_, ?_⟩
  · exact hsound.current hgate houtput hplace hname hseen hrun
  · rw [skipped_iff_recorded hgate houtput]
    exact hsound.recorded_iff hgate hname hseen

section Touched

-- A request for a header, whose artifact is judged by contents.
def headerRequest : GenerationRequest where
  input := ⟨"a.h"⟩
  output := some ⟨"b.h"⟩
  parsing := ⟨.tolerant, []⟩
  selection := .default
  format := .cpp
  cpp := .default
  gate := .contentHash
  force := false

-- A store with an empty header in it.
def headerStore : Store := (Store.empty 0).set [['a', '.', 'h']] (.file "".toUTF8 0)

-- The header is generated from and touched.
def touchedSession : Session :=
  after headerRequest ⟨"b.h"⟩ headerStore [.generate true, .touchSource 9]

theorem renders_headerStore : ∃ text, headerRequest.Renders headerStore text ⟨[], []⟩ := by
  have htext : (headerStore.read headerRequest.input).bind Program.ofBytes = .ok [] :=
    Program.ofBytes_toUTF8 ""
  have hexpand : Header.expand [] [] = [] := by
    rw [Header.expand, Header.scan, scan, scanFrom]
    rfl
  have hheader : Source.ofHeader headerRequest.parsing headerRequest.input [] =
      .done (.ok ⟨[], ⟨0, 0⟩⟩) := by
    rw [Source.ofHeader, headerRequest, hexpand]
    simp only [Header.parse_nil]
    rfl
  have htree : Source.isTree headerRequest.input = false := by decide
  refine ⟨_, ⟨[], ⟨0, 0⟩⟩, some (sourceHash "".toUTF8), ?_, rfl, rfl, rfl⟩
  rw [Source.load, Program.run_textOf_bind, htext]
  simp only [htree, hheader]
  rfl

theorem touchedSession_eq : ∃ store entry, touchedSession = ⟨store, ["".toUTF8], some "".toUTF8⟩ ∧
    store.read headerRequest.input = .ok "".toUTF8 ∧ store.lookup ⟨"b.h"⟩ = .ok entry := by
  obtain ⟨text, hrenders⟩ := renders_headerStore
  obtain ⟨later, store, entry, hwrite, htouch, hsource, houtput⟩ : ∃ later store entry,
      headerStore.write ⟨"b.h"⟩ text.toUTF8 = .ok later ∧
      later.touch headerRequest.input 9 = .ok store ∧
      store.read headerRequest.input = .ok "".toUTF8 ∧ store.lookup ⟨"b.h"⟩ = .ok entry :=
    ⟨_, _, _, rfl, rfl, rfl, rfl⟩
  have houtcome := @GenerationRequest.generate_of_makes headerStore later
    { headerRequest with force := true } ⟨"b.h"⟩ rfl rfl "".toUTF8 text _ rfl
    ⟨headerStore, rfl, GenerationRequest.prepare_eq_ok.mpr hrenders⟩ hwrite
  have hvalue : ((start headerRequest headerStore).run headerRequest true).value = _ :=
    congrArg Prod.fst houtcome
  have hstore : ((start headerRequest headerStore).run headerRequest true).store = _ :=
    congrArg Prod.snd houtcome
  have hgenerated : (start headerRequest headerStore).act headerRequest ⟨"b.h"⟩ (.generate true) =
      ⟨later, ["".toUTF8], some "".toUTF8⟩ := by
    unfold act
    dsimp only
    rw [hvalue, hstore]
    rfl
  refine ⟨store, entry, ?_, hsource, houtput⟩
  rw [touchedSession, after, List.foldl_cons, hgenerated, List.foldl_cons, act, htouch]
  rfl

-- Touching a header that has been generated from does not make its artifact stale.
theorem gate_exact_touched :
    '\n' ∉ (sourceName headerRequest.input).toList ∧
      ∃ path, (touchedSession.run headerRequest false).value = .ok (.skipped path) := by
  obtain ⟨store, entry, hsession, hsource, houtput⟩ := touchedSession_eq
  have hexact := @gate_exact headerRequest ⟨"b.h"⟩ headerStore rfl rfl (by decide) (by decide)
    nofun [.generate true, .touchSource 9]
  rw [← touchedSession, hsession] at hexact
  rw [hsession]
  refine ⟨by decide, (hexact ?_).2.mpr ⟨⟨entry, houtput⟩, "".toUTF8, hsource, rfl⟩⟩
  intro first hfirst second hsecond _
  rw [List.mem_singleton.mp hfirst, List.mem_singleton.mp hsecond]

end Touched

end Session

end Reflection
