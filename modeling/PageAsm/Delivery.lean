import PageAsm.Run

/-!
# PageAsm.Delivery

Writing to files that may run out of room.  A file takes the bytes it is given
until its room is full; the item that does not fit is cut off there, and
nothing is written after it.
-/

namespace PageAsm

/-- A file with the room it has in bytes, if that is limited. -/
structure Sink where
  room : Option Nat
  contents : ByteArray

namespace Sink

def empty (room : Option Nat) : Sink := ⟨room, ByteArray.empty⟩

/-- Write a text and tell whether all of it fits. -/
def write (s : Sink) (text : String) : Sink × Bool :=
  let contents := s.contents ++ text.toUTF8
  match s.room with
  | none => ({ s with contents := contents }, true)
  | some room =>
    if contents.size ≤ room then ({ s with contents := contents }, true)
    else ({ s with contents := contents.extract 0 room }, false)

end Sink

/-- What the two files hold, and how the run ended. -/
structure Delivery (α : Type) where
  object : ByteArray
  listing : ByteArray
  outcome : Except Failure α

namespace Delivery

/-- The reason given when a file is full. -/
def fullReason : String := "disk full"

/-- Write items until one does not fit; that one is returned. -/
def writeAll : Sink → Sink → List Write → Sink × Sink × Option Write
  | object, listing, [] => (object, listing, none)
  | object, listing, w :: ws =>
    match w.item.output with
    | .object =>
      match object.write w.item.text with
      | (object, true) => writeAll object listing ws
      | (object, false) => (object, listing, some w)
    | .listing =>
      match listing.write w.item.text with
      | (listing, true) => writeAll object listing ws
      | (listing, false) => (object, listing, some w)

/-- Deliver a run to files with limited room. -/
def ofRun {α : Type} (run : Run α) (objectRoom listingRoom : Option Nat) : Delivery α :=
  match writeAll (.empty objectRoom) (.empty listingRoom) run.writes with
  | (object, listing, none) => ⟨object.contents, listing.contents, run.outcome⟩
  | (object, listing, some w) =>
    ⟨object.contents, listing.contents,
      w.line.fail (.unwritable w.item.output fullReason)⟩

end Delivery

end PageAsm
