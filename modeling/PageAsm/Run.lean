import PageAsm.Emission

/-!
# PageAsm.Run

A run over the lines of a segment: what is written to the two files, in order,
and how it ends.  The literal pool belongs to the last line: its records are
written in front of the records of that line, its rows behind the rows.
-/

namespace PageAsm

/-- What is written to one of the files. -/
inductive Item where
  | record (r : Record)
  | row (r : Row)
deriving DecidableEq

namespace Item

def output : Item → Output
  | record _ => .object
  | row _ => .listing

/-- The text that is written, with its newline. -/
def text : Item → String
  | record r => r.render ++ "\n"
  | row r => r.render ++ "\n"

def record? : Item → Option Record
  | record r => some r
  | row _ => none

def row? : Item → Option Row
  | record _ => none
  | row r => some r

end Item

/-- An item together with the line it is written for. -/
structure Write where
  line : Line
  item : Item
deriving DecidableEq

/-- What is written, and what comes of it or why it stopped. -/
structure Run (α : Type) where
  writes : List Write
  outcome : Except Failure α

namespace Run

variable {α : Type}

/-- A run that stops before anything is written. -/
def stop (f : Failure) : Run α := ⟨[], .error f⟩

def recordWrites (line : Line) (out : Emission) : List Write :=
  out.records.map fun r => ⟨line, .record r⟩

def rowWrites (line : Line) (out : Emission) : List Write :=
  out.rows.map fun r => ⟨line, .row r⟩

/-- A run that writes first what is given. -/
def after (writes : List Write) (run : Run α) : Run α :=
  { run with writes := writes ++ run.writes }

/-- A run with one more step at its end. -/
def check {β : Type} (run : Run α) (f : α → Except Failure β) : Run β :=
  ⟨run.writes, run.outcome.bind f⟩

/-! ## the lines of a segment -/

/-- The run over the last line, to the address after the code. -/
def last (t : Layout) (e : Emitter) (line : Line) : Run UInt16 :=
  match t.pool line with
  | .error f => stop f
  | .ok pool =>
    after (recordWrites line pool) <|
      match e.step t line with
      | (.error f, _) => stop f
      | (.ok out, _) =>
        ⟨recordWrites line out ++ rowWrites line out ++ rowWrites line pool, .ok e.location⟩

/-- The run over the given lines from a state on. -/
def resume (t : Layout) : Emitter → List Line → Run UInt16
  | e, [] => ⟨[], .ok e.location⟩
  | e, [line] => last t e line
  | e, line :: rest =>
    match e.step t line with
    | (.error f, _) => stop f
    | (.ok out, e) => after (recordWrites line out ++ rowWrites line out) (resume t e rest)

/-- The run over the lines of a segment. -/
def ofLines (t : Layout) (lines : List Line) : Run UInt16 := resume t (Emitter.start t) lines

/-! ## the files -/

/-- The records of the object file. -/
def records (run : Run α) : List Record := run.writes.filterMap fun w => w.item.record?

/-- The rows of the listing file. -/
def rows (run : Run α) : List Row := run.writes.filterMap fun w => w.item.row?

/-- The text of the object file. -/
def object (run : Run α) : String := String.join (run.records.map fun r => r.render ++ "\n")

/-- The text of the listing file. -/
def listing (run : Run α) : String := String.join (run.rows.map fun r => r.render ++ "\n")

@[simp] theorem records_after (writes : List Write) (run : Run α) :
    (after writes run).records = writes.filterMap (fun w => w.item.record?) ++ run.records := by
  simp [records, after]

@[simp] theorem rows_after (writes : List Write) (run : Run α) :
    (after writes run).rows = writes.filterMap (fun w => w.item.row?) ++ run.rows := by
  simp [rows, after]

@[simp] theorem outcome_after (writes : List Write) (run : Run α) :
    (after writes run).outcome = run.outcome := rfl

end Run

end PageAsm
