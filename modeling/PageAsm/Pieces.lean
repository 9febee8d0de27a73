import PageAsm.Run

/-!
# PageAsm.Pieces

The text of an item reaches its file in pieces, which are never divided:

1. a constant text and a field are one piece each;
2. a number in hexadecimal is one piece for every zero in front, and one for
   the digits from the first that counts;
3. every blank that fills a field up to its width is a piece;
4. the source columns of a row are one piece.

The pieces of an item, put together, are its text (`join_pieces`).
-/

namespace PageAsm

namespace Text

/-- The pieces of digits: the zeros in front, one by one, and the rest. -/
def digitPieces : List Char → List String
  | '0' :: c :: cs => "0" :: digitPieces (c :: cs)
  | cs => [String.ofList cs]

/-- A number of single blanks. -/
def blankPieces (n : Nat) : List String := List.replicate n " "

/-- The pieces of a string padded at the end. -/
def alignLeftPieces (width : Nat) (s : String) : List String :=
  s :: blankPieces (width - s.toList.length)

/-- The pieces of a string padded in front. -/
def alignRightPieces (width : Nat) (s : String) : List String :=
  blankPieces (width - s.toList.length) ++ [s]

end Text

def Word.hexPieces (value : UInt16) : List String := Text.digitPieces (hexChars value)

def Patch.pieces (p : Patch) : List String := [p.width.render, p.name]

namespace Record

def offsetPieces (offset : UInt16) : List String :=
  Text.digitPieces (offsetText offset).toList

/-- The pieces of the line of a record. -/
def pieces : Record → List String
  | header name origin length =>
    "H" :: Text.alignLeftPieces 6 name ++ Word.hexPieces origin ++ Word.hexPieces length
  | text address word none => "T" :: Word.hexPieces address ++ Word.hexPieces word
  | text address word (some patch) =>
    "T" :: Word.hexPieces address ++ Word.hexPieces word ++ patch.pieces
  | entry name offset => "N" :: name :: "=" :: offsetPieces offset
  | «end» address => "E" :: Word.hexPieces address

end Record

def SourceColumns.numberPieces (number : Nat) : List String :=
  "(" :: Text.alignRightPieces 4 (toString number) ++ [")"]

namespace Row

def wordPieces (address bits : UInt16) : List String :=
  "(" :: Word.hexPieces address ++ ") " :: Word.hexPieces bits ++ [" ", Word.binary bits 16, " "]

/-- The pieces of the line of a row. -/
def pieces : Row → List String
  | .bare source => Text.alignLeftPieces memoryWidth "" ++ [source.render]
  | .word address bits source => wordPieces address bits ++ [source.render]
  | .continuation address bits number =>
    wordPieces address bits ++ SourceColumns.numberPieces number
  | .block address source =>
    Text.alignLeftPieces memoryWidth (renderAddress address) ++ [source.render]
  | .literal address bits => wordPieces address bits ++ ["( lit)"]

end Row

/-- The pieces of the text of an item; the newline is one of its own. -/
def Item.pieces : Item → List String
  | record r => r.pieces ++ ["\n"]
  | row r => r.pieces ++ ["\n"]

/-! ## pieces put together -/

namespace Text

@[simp] theorem join_digitPieces (cs : List Char) :
    String.join (digitPieces cs) = String.ofList cs := by
  fun_induction digitPieces cs with
  | case1 c cs ih => simp [ih, String.ofList_cons]
  | case2 => simp

@[simp] theorem join_blankPieces (n : Nat) :
    String.join (blankPieces n) = String.ofList (List.replicate n ' ') := by
  induction n with
  | zero => rfl
  | succ n ih =>
    rw [blankPieces, List.replicate_succ, String.join_cons, ← blankPieces, ih, List.replicate_succ]
    simp [String.ofList_cons]

@[simp] theorem join_alignLeftPieces (width : Nat) (s : String) :
    String.join (alignLeftPieces width s) = alignLeft width s := by
  simp [alignLeftPieces, alignLeft, padEnd, String.ofList_append]

@[simp] theorem join_alignRightPieces (width : Nat) (s : String) :
    String.join (alignRightPieces width s) = alignRight width s := by
  simp [alignRightPieces, alignRight, padStart, String.ofList_append]

end Text

@[simp] theorem Word.join_hexPieces (value : UInt16) : String.join (hexPieces value) = hex value := by
  simp [hexPieces, hex]

theorem Record.join_pieces (r : Record) : String.join r.pieces = r.render := by
  cases r with
  | text address word patch =>
    cases patch <;> simp [pieces, render, Patch.pieces, Patch.render, String.append_assoc]
  | _ => simp [pieces, render, offsetPieces, String.append_assoc]

theorem Row.join_pieces (r : Row) : String.join r.pieces = r.render := by
  cases r <;>
    simp [pieces, render, wordPieces, renderWord, renderAddress, SourceColumns.numberPieces,
      SourceColumns.renderNumber, String.append_assoc]

theorem Item.join_pieces (item : Item) : String.join item.pieces = item.text := by
  cases item <;> simp [pieces, text, Record.join_pieces, Row.join_pieces]

end PageAsm
