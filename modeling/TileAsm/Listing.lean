import TileAsm.Decoded.Printer

/-!
# Listings

A listing goes through an image from front to back, one line per instruction. A byte that starts
no instruction has a line of its own. So every byte stands on exactly one line, and the lines
follow each other without a gap.
-/

namespace TileAsm

open Text

/-- An image, or a part of one. -/
structure Image where
  /-- The offset of the first byte. -/
  base : Nat := 0
  /-- The bytes. -/
  bytes : List UInt8
  deriving DecidableEq, Repr, Inhabited

namespace Image

/-- The offset behind the last byte. -/
def endOffset (img : Image) : Nat := img.base + img.bytes.length

/-- The bytes from an offset on, if it lies in the image or right behind it. -/
def tail? (img : Image) (offset : Nat) : Option (List UInt8) :=
  if img.base ≤ offset ∧ offset ≤ img.endOffset then some (img.bytes.drop (offset - img.base))
  else none

/-- Why a part of a file cannot be taken. -/
inductive WindowError where
  /-- It starts behind the end of the file. -/
  | skipTooLarge
  /-- It ends behind the end of the file. -/
  | lengthTooLarge
  deriving DecidableEq, Repr, Inhabited

/-- The wording of the failure. -/
def WindowError.message : WindowError → String
  | .skipTooLarge => "--skip exceeds file size"
  | .lengthTooLarge => "--len exceeds remaining file size after skip"

/-- The part of a file that starts behind `skip` bytes and has the given length, or reaches to
the end of the file. -/
def window (file : List UInt8) (skip : Nat) (length? : Option Nat) : Except WindowError Image :=
  if skip > file.length then .error .skipTooLarge
  else
    let rest := file.drop skip
    match length? with
    | none => .ok { base := skip, bytes := rest }
    | some length =>
      if length > rest.length then .error .lengthTooLarge
      else .ok { base := skip, bytes := rest.take length }

end Image

/-- One line of a listing. -/
structure ListingLine where
  /-- The offset of its first byte. -/
  offset : Nat
  /-- The bytes of the instruction. -/
  bytes : List UInt8
  /-- The instruction as text. -/
  text : String
  deriving DecidableEq, Repr, Inhabited

namespace ListingLine

/-- The line of what a row of bytes starts with: an instruction, or else its first byte. -/
def first (offset : Nat) (b : UInt8) (rest : List UInt8) : ListingLine :=
  match Decoded.ofBytes? (b :: rest) with
  | some d => { offset, bytes := (b :: rest).take d.width, text := d.render }
  | none => { offset, bytes := [b], text := ".byte " ++ hexByte b }

theorem length_bytes_first_pos (offset : Nat) (b : UInt8) (rest : List UInt8) :
    0 < (first offset b rest).bytes.length := by
  unfold first
  split
  · rename_i d _
    have := d.width_pos
    simp only [List.length_take, List.length_cons]
    omega
  · simp

/-- The lines of a row of bytes, behind those in `found`, whose order is reversed. -/
def collect (found : List ListingLine) (offset : Nat) : List UInt8 → List ListingLine
  | [] => found.reverse
  | b :: rest =>
    let line := first offset b rest
    let width := line.bytes.length
    collect (line :: found) (offset + width) ((b :: rest).drop width)
termination_by code => code.length
decreasing_by
  have := length_bytes_first_pos offset b rest
  simp only [List.length_drop, List.length_cons]
  omega

/-- What was listed before does not matter to what is listed. -/
theorem collect_eq_append (found : List ListingLine) (offset : Nat) (code : List UInt8) :
    collect found offset code = found.reverse ++ collect [] offset code := by
  induction h : code.length using Nat.strongRecOn generalizing found offset code with
  | ind n ih =>
    cases code with
    | nil => simp [collect]
    | cons b rest =>
      have hpos := length_bytes_first_pos offset b rest
      have hlt : ((b :: rest).drop (first offset b rest).bytes.length).length < n := by
        simp only [List.length_drop, List.length_cons] at h ⊢
        omega
      rw [collect, collect, ih _ hlt _ _ _ rfl, ih _ hlt [_] _ _ rfl]
      simp

end ListingLine

/-- The listing of an image. -/
def Image.listing (img : Image) : List ListingLine := ListingLine.collect [] img.base img.bytes

/-- A line of a printed listing: the offset, the bytes if they are wanted, and the text. -/
def ListingLine.render (showBytes : Bool) (line : ListingLine) : String :=
  let bytes := line.bytes.map fun b ↦ String.ofList (hexDigits 2 b.toNat) ++ " "
  hex 4 line.offset ++ ": " ++ (if showBytes then String.join bytes ++ "  " else "") ++
    line.text ++ "\n"

/-- A printed listing. -/
def renderListing (lines : List ListingLine) (showBytes : Bool) : String :=
  String.join (lines.map (ListingLine.render showBytes))

end TileAsm
