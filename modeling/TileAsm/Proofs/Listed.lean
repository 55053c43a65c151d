import TileAsm.Proofs.Delimiting
import TileAsm.Proofs.Disassembly

/-!
# Listings as a relation

`Image.listing` is a loop that cuts off one line after the other. `Listed` says the same without a
loop: which lines list which bytes, by one rule for an instruction, one for a byte that starts none,
and one for the end. The two agree (`listed_iff_eq_listing`), so a statement about all listings is
an induction with these three cases, and none of its proofs looks at the loop again.

The rule for an instruction speaks of its encoding and not of the bytes that were looked at, the
rule for a byte of all that follows it. This is where the two differ when bytes are added or cut
off: an instruction does not mind, a byte might.
-/

namespace TileAsm

open Text

/-! ### The rules -/

/-- `Listed offset code lines` means that `lines` are the lines of the bytes `code` when these start
at `offset`. -/
inductive Listed : Nat → List UInt8 → List ListingLine → Prop
  /-- There are no lines without bytes. -/
  | nil (offset : Nat) : Listed offset [] []
  /-- An instruction has a line of its own. -/
  | instruction {offset : Nat} {d : Decoded} {rest : List UInt8} {lines : List ListingLine}
    (hd : d.Readable) (hrest : Listed (offset + d.width) rest lines) :
    Listed offset (d.encode ++ rest) ({ offset, bytes := d.encode, text := d.render } :: lines)
  /-- So has a byte that starts no instruction. -/
  | byte {offset : Nat} {b : UInt8} {rest : List UInt8} {lines : List ListingLine}
    (hb : Decoded.ofBytes? (b :: rest) = none) (hrest : Listed (offset + 1) rest lines) :
    Listed offset (b :: rest) ({ offset, bytes := [b], text := ".byte " ++ hexByte b } :: lines)

/-! ### Agreement with the loop -/

/-- The line of what a row of bytes starts with, if that is no instruction. -/
theorem ListingLine.first_of_ofBytes?_eq_none {b : UInt8} {rest : List UInt8}
    (h : Decoded.ofBytes? (b :: rest) = none) (offset : Nat) :
    first offset b rest = { offset, bytes := [b], text := ".byte " ++ hexByte b } := by
  rw [first, h]

/-- One turn of the loop on a byte that starts no instruction. -/
theorem ListingLine.collect_of_ofBytes?_eq_none {b : UInt8} {rest : List UInt8}
    (h : Decoded.ofBytes? (b :: rest) = none) (offset : Nat) :
    collect [] offset (b :: rest) =
      { offset, bytes := [b], text := ".byte " ++ hexByte b } :: collect [] (offset + 1) rest := by
  rw [collect, first_of_ofBytes?_eq_none h, collect_eq_append]
  rfl

/-- The loop follows the rules. -/
theorem listed_collect (offset : Nat) (code : List UInt8) :
    Listed offset code (ListingLine.collect [] offset code) := by
  induction hlength : code.length using Nat.strongRecOn generalizing offset code with
  | ind n ih =>
    match code with
    | [] =>
      rw [ListingLine.collect]
      exact .nil offset
    | b :: rest =>
      rcases hd : Decoded.ofBytes? (b :: rest) with - | d
      · have hlt : rest.length < n := by
          rw [← hlength, List.length_cons]
          omega
        rw [ListingLine.collect_of_ofBytes?_eq_none hd]
        exact .byte hd (ih _ hlt _ _ rfl)
      · obtain ⟨hreadable, tail, htail⟩ := Decoded.ofBytes?_eq_some_iff.1 hd
        have hlt : tail.length < n := by
          have := d.width_pos
          rw [← hlength, ← htail, List.length_append, d.length_encode]
          omega
        rw [← htail, ListingLine.collect_encode_append hreadable]
        exact .instruction hreadable (ih _ hlt _ _ rfl)

/-- The rules leave no choice. -/
theorem Listed.eq_collect {offset : Nat} {code : List UInt8} {lines : List ListingLine}
    (h : Listed offset code lines) : lines = ListingLine.collect [] offset code := by
  induction h with
  | nil offset => rw [ListingLine.collect]; rfl
  | instruction hd _ ih => rw [ListingLine.collect_encode_append hd, ← ih]
  | byte hb _ ih => rw [ListingLine.collect_of_ofBytes?_eq_none hb, ← ih]

/-- **The listing of an image is the one that follows the rules.** -/
theorem listed_iff_eq_listing {img : Image} {lines : List ListingLine} :
    Listed img.base img.bytes lines ↔ lines = img.listing := by
  refine ⟨fun h ↦ h.eq_collect, ?_⟩
  rintro rfl
  exact listed_collect img.base img.bytes

namespace Listed

variable {offset : Nat} {code : List UInt8} {lines : List ListingLine}

/-! ### Offsets -/

/-- Every line starts at one of the bytes that are listed. -/
theorem offset_of_mem (h : Listed offset code lines) {line : ListingLine} (hline : line ∈ lines) :
    offset ≤ line.offset ∧ line.offset < offset + code.length := by
  induction h with
  | nil => exact absurd hline (by simp)
  | @instruction offset d rest lines hd _ ih =>
    have hpos := d.width_pos
    rw [List.length_append, d.length_encode]
    rcases List.mem_cons.1 hline with rfl | hline
    · dsimp only
      omega
    · have := ih hline
      omega
  | byte hb _ ih =>
    rw [List.length_cons]
    rcases List.mem_cons.1 hline with rfl | hline
    · dsimp only
      omega
    · have := ih hline
      omega

end Listed

end TileAsm
