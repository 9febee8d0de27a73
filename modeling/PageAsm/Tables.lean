import PageAsm.Symbol

/-!
# PageAsm.Tables

The tables of a segment together, and the changes that are made to them one
after the other.
-/

namespace PageAsm

/-- The symbols, the external names and the literals of a segment. -/
structure Tables where
  symbols : SymbolTable
  externals : List String
  literals : LiteralTable
deriving DecidableEq

namespace Tables

def empty : Tables := ⟨.empty, [], .empty⟩

/-- A change to one of the tables. -/
inductive Change where
  | define (name : String) (symbol : Symbol)
  | declare (name : String)
  | allocate (base : UInt16) (tokens : List String)
deriving DecidableEq

/-- Make a change. -/
def apply (t : Tables) : Change → Tables
  | .define name symbol => { t with symbols := (t.symbols.define name symbol).1 }
  | .declare name => { t with externals := Names.declare t.externals name }
  | .allocate base tokens =>
    { t with literals := (LiteralTable.allocate t.literals base tokens).1 }

/-- Make several changes in order. -/
def applyAll (t : Tables) (changes : List Change) : Tables := changes.foldl apply t

/-- The tables after some changes, empty before the first of them. -/
def ofChanges (changes : List Change) : Tables := empty.applyAll changes

end Tables

end PageAsm
