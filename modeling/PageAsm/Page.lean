/-!
# PageAsm.Page

Memory is divided into 128 pages of 512 words.  An instruction refers to an
address by its offset in the page of the word that follows the instruction.
-/

namespace PageAsm

namespace Page

/-- Words of a page. -/
def size : Nat := 512

/-- The number of the page an address lies on. -/
def ofAddress (address : UInt16) : Nat := address.toNat / size

end Page

/-- A target on another page than the following instruction. -/
structure PageError where
  pcPage : Nat
  targetPage : Nat
deriving DecidableEq

/-- The wording of a page error. -/
def PageError.message (e : PageError) : String :=
  "address is not on the same page as PC (PC at page #" ++ toString e.pcPage
    ++ ", address at page #" ++ toString e.targetPage ++ ")"

namespace Page

/-- The offset of `target` in its page, which has to be the page of the word
after `location`. -/
def offset (location target : UInt16) : Except PageError UInt16 :=
  if ofAddress (location + 1) = ofAddress target then
    .ok (UInt16.ofNat (target.toNat % size))
  else .error ⟨ofAddress (location + 1), ofAddress target⟩

/-- The address that an offset denotes in the instruction at `location`. -/
def address (location offset : UInt16) : UInt16 :=
  UInt16.ofNat (ofAddress (location + 1) * size + offset.toNat % size)

/-- An offset that was found denotes its target. -/
theorem address_of_offset {location target offset : UInt16}
    (h : Page.offset location target = .ok offset) : address location offset = target := by
  unfold Page.offset at h
  split at h
  · next hp =>
    cases h
    apply UInt16.toNat_inj.mp
    have := target.toNat_lt
    simp only [ofAddress, size] at hp
    simp only [address, ofAddress, size, UInt16.toNat_ofNat']
    omega
  · contradiction

end Page

end PageAsm
