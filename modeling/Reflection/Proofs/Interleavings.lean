import Mathlib.Logic.Relation
import Reflection.Program

namespace Reflection

open Relation (ReflTransGen)

namespace Program

variable {α β : Type}

-- The first step of a program: what remains to be done, and the store after it.
def step : Program α → Store → Option (Program α × Store)
  | done _, _ => none
  | modified path rest, store => some (rest (store.modified path), store)
  | read path rest, store => some (rest (store.read path), store)
  | write path text rest, store =>
    match store.write path text.toUTF8 with
    | .ok written => some (rest (.ok ()), written)
    | .error error => some (rest (.error error), store)
  | sameFile first second rest, store => some (rest (store.sameFile first second), store)
  | notify _ rest, store => some (rest, store)

-- What can come of a program if others change the store, as often as they like, before each of its
-- steps and after the last.
inductive Among (others : Store → Store → Prop) : Program α → Store → α → Store → Prop where
  | done (value : α) (store : Store) : Among others (.done value) store value store
  | own {program rest : Program α} {store moved later : Store} {result : α}
      (hstep : program.step store = some (rest, moved))
      (hrest : Among others rest moved result later) : Among others program store result later
  | other {program : Program α} {store changed later : Store} {result : α}
      (hchange : others store changed) (hrest : Among others program changed result later) :
      Among others program store result later

section Steps

variable {program rest : Program α} {store moved : Store}

theorem step_write (path : Path) (text : String) (next : Except FileError Unit → Program α)
    (store : Store) : (write path text next).step store =
      match store.write path text.toUTF8 with
      | .ok written => some (next (.ok ()), written)
      | .error error => some (next (.error error), store) :=
  rfl

theorem step_bind (hstep : program.step store = some (rest, moved)) (next : α → Program β) :
    (program.bind next).step store = some (rest.bind next, moved) := by
  cases program with
  | done value => cases hstep
  | write path text following =>
      rw [step_write] at hstep
      rw [bind, step_write]
      cases hwrite : store.write path text.toUTF8 with
      | ok written =>
          rw [hwrite] at hstep
          cases hstep
          rfl
      | error error =>
          rw [hwrite] at hstep
          cases hstep
          rfl
  | _ =>
      cases hstep
      rfl

theorem step_eq_none (h : program.step store = none) : ∃ value, program = .done value := by
  cases program with
  | done value => exact ⟨value, rfl⟩
  | write path text following =>
      rw [step_write] at h
      cases hwrite : store.write path text.toUTF8 <;> rw [hwrite] at h <;> cases h
  | _ => cases h

end Steps

section Runs

variable {others : Store → Store → Prop} {program : Program α} {store between later : Store}
  {result : α}

theorem Among.before (h : ReflTransGen others store between)
    (hrun : program.Among others between result later) :
    program.Among others store result later := by
  induction h using ReflTransGen.head_induction_on with
  | refl => exact hrun
  | head hchange _ ih => exact .other hchange ih

theorem among_done {value : α} :
    (done value).Among others store result later ↔
      value = result ∧ ReflTransGen others store later := by
  constructor
  · intro h
    generalize hprogram : done value = program at h
    induction h with
    | done found store =>
        cases hprogram
        exact ⟨rfl, .refl⟩
    | own hstep _ _ =>
        subst hprogram
        cases hstep
    | other hchange _ ih =>
        obtain ⟨hresult, hchanges⟩ := ih hprogram
        exact ⟨hresult, .head hchange hchanges⟩
  · rintro ⟨rfl, hchanges⟩
    exact .before hchanges (.done value later)

-- Others may change the store before a step, and then the step is taken.
theorem among_iff_step (hprogram : ∀ value, program ≠ .done value) :
    program.Among others store result later ↔
      ∃ moment, ReflTransGen others store moment ∧
        ∃ rest moved, program.step moment = some (rest, moved) ∧
          rest.Among others moved result later := by
  constructor
  · intro h
    induction h with
    | done value store => exact absurd rfl (hprogram value)
    | own hstep hrest _ => exact ⟨_, .refl, _, _, hstep, hrest⟩
    | other hchange _ ih =>
        obtain ⟨moment, hmoment, hstep⟩ := ih hprogram
        exact ⟨moment, .head hchange hmoment, hstep⟩
  · rintro ⟨moment, hmoment, rest, moved, hstep, hrest⟩
    exact .before hmoment (.own hstep hrest)

theorem exists_step_iff {rest : Program α} {moved : Store}
    (hstep : program.step store = some (rest, moved)) :
    (∃ rest moved, program.step store = some (rest, moved) ∧
      rest.Among others moved result later) ↔ rest.Among others moved result later := by
  refine ⟨fun ⟨found, reached, hfound, hrest⟩ => ?_, fun hrest => ⟨rest, moved, hstep, hrest⟩⟩
  cases hstep.symm.trans hfound
  exact hrest

theorem among_read {path : Path} {next : Except FileError ByteArray → Program α} :
    (read path next).Among others store result later ↔
      ∃ moment, ReflTransGen others store moment ∧
        (next (moment.read path)).Among others moment result later :=
  (among_iff_step fun _ hdone => by cases hdone).trans
    (exists_congr fun _ => and_congr_right fun _ => exists_step_iff rfl)

theorem among_write {path : Path} {text : String} {next : Except FileError Unit → Program α} :
    (write path text next).Among others store result later ↔
      ∃ moment, ReflTransGen others store moment ∧
        match moment.write path text.toUTF8 with
        | .ok written => (next (.ok ())).Among others written result later
        | .error error => (next (.error error)).Among others moment result later := by
  refine (among_iff_step fun _ hdone => by cases hdone).trans
    (exists_congr fun moment => and_congr_right fun _ => ?_)
  cases hwrite : moment.write path text.toUTF8 with
  | ok written => exact exists_step_iff (by rw [step_write, hwrite])
  | error error => exact exists_step_iff (by rw [step_write, hwrite])

theorem among_notify {notice : Notice} {next : Program α} :
    (notify notice next).Among others store result later ↔
      next.Among others store result later := by
  have hstep (moment : Store) : (notify notice next).step moment = some (next, moment) := rfl
  refine (among_iff_step fun _ hdone => by cases hdone).trans ⟨?_, fun hrest => ?_⟩
  · rintro ⟨moment, hmoment, hrest⟩
    exact .before hmoment ((exists_step_iff (hstep moment)).mp hrest)
  · exact ⟨store, .refl, next, store, hstep store, hrest⟩

-- A run that nobody disturbs is one of them.
theorem among_run (others : Store → Store → Prop) (program : Program α) (store : Store) :
    program.Among others store (program.run store).value (program.run store).store := by
  induction program generalizing store with
  | done value => exact .done value store
  | write path text next ih =>
      rw [run]
      cases hwrite : store.write path text.toUTF8 with
      | ok written => exact .own (by rw [step_write, hwrite]) (ih _ written)
      | error error => exact .own (by rw [step_write, hwrite]) (ih _ store)
  | modified path next ih | read path next ih => exact .own rfl (ih _ store)
  | sameFile first second next ih => exact .own rfl (ih _ store)
  | notify notice next ih => exact .own rfl (ih store)

theorem Among.bind {value : α} {next : α → Program β} {result : β}
    (hfirst : program.Among others store value between)
    (hnext : (next value).Among others between result later) :
    (program.bind next).Among others store result later := by
  induction hfirst with
  | done value store => exact hnext
  | own hstep _ ih => exact .own (step_bind hstep next) (ih hnext)
  | other hchange _ ih => exact .other hchange (ih hnext)

theorem among_bind {next : α → Program β} {result : β} :
    (program.bind next).Among others store result later ↔
      ∃ value between, program.Among others store value between ∧
        (next value).Among others between result later := by
  refine ⟨fun h => ?_, fun ⟨value, between, hfirst, hnext⟩ => hfirst.bind hnext⟩
  -- on the run of both: its steps are those of the first program until that is done
  generalize hwhole : program.bind next = whole at h
  induction h generalizing program with
  | done value store =>
      cases program with
      | done first =>
          have hnext : next first = .done value := hwhole
          refine ⟨first, store, .done first store, ?_⟩
          rw [hnext]
          exact .done value store
      | _ => cases hwhole
  | @own whole rest store moved later result hstep hrest ih =>
      subst hwhole
      cases hfirst : program.step store with
      | none =>
          obtain ⟨first, rfl⟩ := step_eq_none hfirst
          exact ⟨first, store, .done first store, .own hstep hrest⟩
      | some reached =>
          obtain ⟨remaining, reached⟩ := reached
          have hsame := (step_bind hfirst next).symm.trans hstep
          cases hsame
          obtain ⟨value, between, hremaining, hnext⟩ := ih rfl
          exact ⟨value, between, .own hfirst hremaining, hnext⟩
  | other hchange _ ih =>
      obtain ⟨value, between, hfirst, hnext⟩ := ih hwhole
      exact ⟨value, between, .other hchange hfirst, hnext⟩

end Runs

section Kinds

variable {others : Store → Store → Prop} {program : Program α} {store later : Store} {result : α}
  {path : Path}

-- Writes nothing.
def Looks : Program α → Prop
  | done _ => True
  | modified _ next => ∀ answer, (next answer).Looks
  | read _ next => ∀ answer, (next answer).Looks
  | sameFile _ _ next => ∀ answer, (next answer).Looks
  | notify _ next => next.Looks
  | write _ _ _ => False

-- Does not even look at a file.
def Silent : Program α → Prop
  | done _ => True
  | notify _ next => next.Silent
  | modified _ _ | read _ _ | write _ _ _ | sameFile _ _ _ => False

-- Reads one file, once, and does nothing else to the store.
def ReadsOnce (path : Path) : Program α → Prop
  | read other next => other = path ∧ ∀ answer, (next answer).Silent
  | notify _ next => next.ReadsOnce path
  | done _ | modified _ _ | write _ _ _ | sameFile _ _ _ => False

theorem Looks.bind (h : program.Looks) {next : α → Program β}
    (hnext : ∀ value, (next value).Looks) : (program.bind next).Looks := by
  induction program with
  | done value => exact hnext value
  | modified path rest ih | read path rest ih => exact fun answer => ih answer (h answer)
  | sameFile first second rest ih => exact fun answer => ih answer (h answer)
  | notify notice rest ih => exact ih h
  | write path text rest => exact h.elim

theorem looks_timeOf (path : Path) : (timeOf path).Looks := fun _ => trivial

theorem looks_bytesOf (path : Path) : (bytesOf path).Looks := fun _ => trivial

theorem looks_textOf (path : Path) : (textOf path).Looks := fun _ => trivial

theorem Looks.orThrow {ε ε' : Type} {program : Program (Except ε α)} (h : program.Looks)
    (f : ε → ε') : (program.orThrow f).run.Looks :=
  h.bind fun _ => trivial

theorem Looks.store_run (h : program.Looks) (store : Store) :
    (program.run store).store = store := by
  induction program with
  | done value => rfl
  | modified path next ih | read path next ih => exact ih _ (h _)
  | sameFile first second next ih => exact ih _ (h _)
  | notify notice next ih => exact ih h
  | write path text next => exact h.elim

theorem Looks.step {rest : Program α} {moved : Store} (h : program.Looks)
    (hstep : program.step store = some (rest, moved)) : rest.Looks ∧ moved = store := by
  cases program with
  | done value => cases hstep
  | write path text next => exact h.elim
  | modified path next | read path next =>
      cases hstep
      exact ⟨h _, rfl⟩
  | sameFile first second next =>
      cases hstep
      exact ⟨h _, rfl⟩
  | notify notice next =>
      cases hstep
      exact ⟨h, rfl⟩

-- While a program that writes nothing runs, only others change the store.
theorem Looks.changes (h : program.Looks) (hrun : program.Among others store result later) :
    ReflTransGen others store later := by
  induction hrun with
  | done value store => exact .refl
  | own hstep _ ih =>
      obtain ⟨hrest, rfl⟩ := h.step hstep
      exact ih hrest
  | other hchange _ ih => exact .head hchange (ih h)

theorem Silent.bind (h : program.Silent) {next : α → Program β}
    (hnext : ∀ value, (next value).Silent) : (program.bind next).Silent := by
  induction program with
  | done value => exact hnext value
  | notify notice rest ih => exact ih h
  | modified _ _ | read _ _ | write _ _ _ | sameFile _ _ _ => exact h.elim

theorem silent_notifyAll (notices : List Notice) : (notifyAll notices).Silent := by
  induction notices with
  | nil => trivial
  | cons notice notices ih => exact ih

theorem Silent.among_iff (h : program.Silent) (other : Store) :
    program.Among others store result later ↔
      (program.run other).value = result ∧ ReflTransGen others store later := by
  induction program with
  | done value => exact among_done
  | notify notice rest ih => exact among_notify.trans (ih h)
  | modified _ _ | read _ _ | write _ _ _ | sameFile _ _ _ => exact h.elim

theorem ReadsOnce.bind (h : program.ReadsOnce path) {next : α → Program β}
    (hnext : ∀ value, (next value).Silent) : (program.bind next).ReadsOnce path := by
  induction program with
  | read other rest => exact ⟨h.1, fun answer => (h.2 answer).bind hnext⟩
  | notify notice rest ih => exact ih h
  | done _ | modified _ _ | write _ _ _ | sameFile _ _ _ => exact h.elim

theorem readsOnce_bytesOf (path : Path) : (bytesOf path).ReadsOnce path := ⟨rfl, fun _ => trivial⟩

theorem readsOnce_textOf (path : Path) : (textOf path).ReadsOnce path := ⟨rfl, fun _ => trivial⟩

theorem ReadsOnce.orThrow {ε ε' : Type} {program : Program (Except ε α)}
    (h : program.ReadsOnce path) (f : ε → ε') : (program.orThrow f).run.ReadsOnce path :=
  h.bind fun _ => trivial

-- What a program that reads once ends with is what it would make of the store at that moment.
theorem ReadsOnce.among_iff (h : program.ReadsOnce path) :
    program.Among others store result later ↔
      ∃ moment, ReflTransGen others store moment ∧ (program.run moment).value = result ∧
        ReflTransGen others moment later := by
  induction program with
  | read other rest =>
      rw [among_read]
      refine exists_congr fun moment => and_congr_right fun _ => ?_
      exact (h.2 _).among_iff moment
  | notify notice rest ih => exact among_notify.trans (ih h)
  | done _ | modified _ _ | write _ _ _ | sameFile _ _ _ => exact h.elim

end Kinds

end Program

end Reflection
