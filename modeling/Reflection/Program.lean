import Reflection.Store

namespace Reflection

-- A program is the tree of its steps. It can be followed on a store that only it changes, or on one
-- that changes between its steps.
inductive Program (α : Type) where
  | done (value : α)
  -- asks when something was last modified, and by that whether it exists
  | modified (path : Path) (next : Except FileError Timestamp → Program α)
  | read (path : Path) (next : Except FileError ByteArray → Program α)
  | write (path : Path) (text : String) (next : Except FileError Unit → Program α)
  -- asks whether two paths lead to the same thing, if both lead to something
  | sameFile (first second : Path) (next : Option Bool → Program α)
  | notify (notice : Notice) (next : Program α)

namespace Program

variable {α β : Type}

def bind (program : Program α) (next : α → Program β) : Program β :=
  match program with
  | done value => next value
  | modified path rest => modified path fun answer => (rest answer).bind next
  | read path rest => read path fun answer => (rest answer).bind next
  | write path text rest => write path text fun answer => (rest answer).bind next
  | sameFile first second rest => sameFile first second fun answer => (rest answer).bind next
  | notify notice rest => notify notice (rest.bind next)

instance : Monad Program where
  pure := done
  bind := bind

theorem bind_done (program : Program α) : program.bind done = program := by
  induction program with
  | done => rfl
  | modified _ _ ih | read _ _ ih | write _ _ _ ih | sameFile _ _ _ ih =>
    simp only [bind]
    congr 1
    funext answer
    exact ih answer
  | notify _ _ ih => simp only [bind, ih]

theorem bind_assoc {γ : Type} (program : Program α) (first : α → Program β)
    (second : β → Program γ) :
    (program.bind first).bind second = program.bind fun value => (first value).bind second := by
  induction program with
  | done => rfl
  | modified _ _ ih | read _ _ ih | write _ _ _ ih | sameFile _ _ _ ih =>
    simp only [bind]
    congr 1
    funext answer
    exact ih answer
  | notify _ _ ih => simp only [bind, ih]

-- The program without those of its notices that are not kept.
def filterNotices (keep : Notice → Bool) : Program α → Program α
  | done value => done value
  | modified path rest => modified path fun answer => (rest answer).filterNotices keep
  | read path rest => read path fun answer => (rest answer).filterNotices keep
  | write path text rest => write path text fun answer => (rest answer).filterNotices keep
  | sameFile first second rest =>
    sameFile first second fun answer => (rest answer).filterNotices keep
  | notify notice rest =>
    if keep notice then notify notice (rest.filterNotices keep) else rest.filterNotices keep

def timeOf (path : Path) : Program (Except FileError Timestamp) := modified path done

def bytesOf (path : Path) : Program (Except FileError ByteArray) := read path done

def present (path : Path) : Program Bool := modified path fun answer => done answer.toOption.isSome

def ofBytes (bytes : ByteArray) : Except FileError (List Char) :=
  match String.fromUTF8? bytes with
  | some text => .ok text.toList
  | none => .error .notText

-- The contents of a file that has to be UTF-8.
def textOf (path : Path) : Program (Except FileError (List Char)) :=
  read path fun answer => done (answer.bind ofBytes)

def notifyAll (notices : List Notice) : Program Unit :=
  notices.foldr notify (done ())

-- Ends a longer program with the error of this one, if it has one.
def orThrow {ε ε' : Type} (f : ε → ε') (program : Program (Except ε α)) : ExceptT ε' Program α :=
  program.bind fun answer => done (answer.mapError f)

end Program

-- What a program leaves behind.
structure Ran (α : Type) where
  value : α
  notices : List Notice
  store : Store

-- Runs a program on a store that nothing else changes.
def Program.run {α : Type} : Program α → Store → Ran α
  | done value, store => ⟨value, [], store⟩
  | modified path rest, store => (rest (store.modified path)).run store
  | read path rest, store => (rest (store.read path)).run store
  | write path text rest, store =>
    match store.write path text.toUTF8 with
    | .ok store => (rest (.ok ())).run store
    | .error error => (rest (.error error)).run store
  | sameFile first second rest, store => (rest (store.sameFile first second)).run store
  | notify notice rest, store =>
    let ran := rest.run store
    { ran with notices := notice :: ran.notices }

-- The second of two programs starts from what the first leaves behind.
def Ran.andThen {α β : Type} (first : Ran α) (second : Ran β) : Ran β :=
  { second with notices := first.notices ++ second.notices }

theorem Program.run_bind {α β : Type} (program : Program α) (next : α → Program β)
    (store : Store) :
    (program.bind next).run store =
      let first := program.run store
      first.andThen ((next first.value).run first.store) := by
  induction program generalizing store with
  | done => rfl
  | modified _ _ ih | read _ _ ih | sameFile _ _ _ ih => exact ih _ store
  | write path text rest ih =>
    simp only [bind, run]
    split
    · exact ih _ _
    · exact ih _ store
  | notify _ _ ih => simp only [bind, run, ih, Ran.andThen, List.cons_append]

end Reflection
