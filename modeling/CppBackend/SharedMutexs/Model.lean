import CppBackend.Library.SharedMutex

/-!
# Readers and writers of a configuration value

Model of `C++MultiThreadingProgram/sharedmutexs.cpp`, with any number of writers and of readers, one reader at
least (`main` starts one writer and five readers).  A reader holds `rw_mtx` shared while it reads
`config_value` and prints it, a writer holds it alone while it writes the value and prints it.  Each `<<` is a
step of its own, and so the pieces of the readers' lines may come in any order.

`main` joins the last reader when it has started it, then the writers, and then the other readers.  Each of
the three is one step; before that, `main` only starts threads.
-/

set_option autoImplicit false

namespace CppBackend.SharedMutexs

open Library.Threads Library.SharedMutex

/-- Program points of `read_config`. -/
inductive ReaderPc where
  | lock
  /-- About to print `"Reader "`. -/
  | label
  | threadId
  /-- About to print `": config_value = "`. -/
  | text
  | read
  /-- Has read the value, about to print it. -/
  | value (v : Int)
  | endl
  | unlock
  | done
  deriving DecidableEq, Repr

/-- Program points of `write_config`. -/
inductive WriterPc where
  | lock
  | write
  /-- About to print `"Writer: update config_value to "`. -/
  | label
  | value
  | endl
  | unlock
  | done
  deriving DecidableEq, Repr

inductive MainPc where
  | joinBack
  | joinWriters
  | joinReaders
  | returned
  deriving DecidableEq, Repr

inductive Thread where
  | reader (id : Nat) (pc : ReaderPc)
  | writer (newValue : Int) (pc : WriterPc)
  | main (pc : MainPc)
  deriving DecidableEq, Repr

/-- What one `<<` prints. -/
inductive Piece where
  | text (s : String)
  | threadId (id : Nat)
  | value (v : Int)
  | endl
  deriving DecidableEq, Repr

/-- A piece of the output, and who has printed it. -/
inductive Output where
  | reader (id : Nat) (piece : Piece)
  | writer (piece : Piece)
  deriving DecidableEq, Repr

structure Shared where
  /-- A writer has `rw_mtx`. -/
  writing : Bool
  /-- The number of readers that have it. -/
  readers : Nat
  configValue : Int
  cout : List Output
  deriving DecidableEq, Repr

/-- One `<<`. -/
def Shared.print (sh : Shared) (o : Output) : Shared := { sh with cout := sh.cout ++ [o] }

/-- `read_config(thread_id)`, one step. -/
def readConfig (id : Nat) (sh : Shared) : ReaderPc → Option (Shared × ReaderPc)
  | .lock => if sh.writing then none else some ({ sh with readers := sh.readers + 1 }, .label)
  | .label => some (sh.print (.reader id (.text "Reader ")), .threadId)
  | .threadId => some (sh.print (.reader id (.threadId id)), .text)
  | .text => some (sh.print (.reader id (.text ": config_value = ")), .read)
  | .read => some (sh, .value sh.configValue)
  | .value v => some (sh.print (.reader id (.value v)), .endl)
  | .endl => some (sh.print (.reader id .endl), .unlock)
  | .unlock => some ({ sh with readers := sh.readers - 1 }, .done)
  | .done => none

/-- `write_config(new_value)`, one step. -/
def writeConfig (newValue : Int) (sh : Shared) : WriterPc → Option (Shared × WriterPc)
  | .lock => if sh.writing || decide (sh.readers ≠ 0) then none else some ({ sh with writing := true }, .write)
  | .write => some ({ sh with configValue := newValue }, .label)
  | .label => some (sh.print (.writer (.text "Writer: update config_value to ")), .value)
  | .value => some (sh.print (.writer (.value newValue)), .endl)
  | .endl => some (sh.print (.writer .endl), .unlock)
  | .unlock => some ({ sh with writing := false }, .done)
  | .done => none

/-- The joins of `main`. -/
def joins : MainPc → Option MainPc
  | .joinBack => some .joinWriters
  | .joinWriters => some .joinReaders
  | .joinReaders => some .returned
  | .returned => none

def threadStep (sh : Shared) (t : Thread) (_ : Unit) : Option (Shared × Thread × Signal Unit) :=
  match t with
  | .reader id pc => (readConfig id sh pc).map fun r => (r.1, .reader id r.2, .quiet)
  | .writer newValue pc => (writeConfig newValue sh pc).map fun r => (r.1, .writer newValue r.2, .quiet)
  | .main pc => (joins pc).map fun pc' => (sh, .main pc', .quiet)

/-- The reader with this number has not returned. -/
def readerRuns (id : Nat) : Thread → Bool
  | .reader k pc => decide (k = id) && decide (pc ≠ .done)
  | _ => false

def someReaderRuns : Thread → Bool
  | .reader _ pc => decide (pc ≠ .done)
  | _ => false

def writerRuns : Thread → Bool
  | .writer _ pc => decide (pc ≠ .done)
  | _ => false

/-- `last` is the number of the reader that was started last. -/
def joining (last : Nat) (ts : List Thread) : Thread → Bool
  | .main .joinBack => ts.any (readerRuns last)
  | .main .joinWriters => ts.any writerRuns
  | .main .joinReaders => ts.any someReaderRuns
  | _ => false

def program (last : Nat) : Program Shared Thread Unit Unit := ⟨threadStep, fun _ _ => false, id, joining last⟩

abbrev Run := World Shared Thread

/-- Thread `a.1` makes its next step. -/
def step (last : Nat) (s : Run) (a : Nat × Unit) : Option Run := s.step (program last) a

def startReaders (last : Nat) : List Thread := (List.range last).map fun k => .reader (k + 1) .lock

/-- `main`, with one writer for each value. -/
def init (last : Nat) (values : List Int) : Run :=
  ⟨⟨false, 0, 100, []⟩, values.map (fun v => .writer v .lock) ++ startReaders last ++ [.main .joinBack]⟩

/-- Two readers share `rw_mtx` and print at the same time, the writer follows them, and `main` returns. -/
def readersFirst : List (Nat × Unit) :=
  [1, 2, 2, 1, 1, 2, 2, 1, 2, 1, 2, 2, 1, 1, 1, 2, 0, 0, 0, 0, 0, 0, 3, 3, 3].map fun i => (i, ())

/-- How a thread holds `rw_mtx`. -/
def hold : Thread → Hold
  | .reader _ .lock | .reader _ .done | .writer _ .lock | .writer _ .done | .main _ => .free
  | .reader _ _ => .shared
  | .writer _ _ => .exclusive

def rwMtx : Mutex Shared Thread := ⟨fun sh => sh.writing, fun sh => sh.readers, hold⟩

end CppBackend.SharedMutexs
