/-!
# Tiles

A tile is a picture of eight rows, one byte each.
-/

namespace TileAsm

/-- The rows of a tile from top to bottom. -/
abbrev TileRows := Vector UInt8 8

/-- The tile with the given rows. -/
def TileRows.ofBytes (a b c d e f g h : UInt8) : TileRows := #v[a, b, c, d, e, f, g, h]

@[simp] theorem TileRows.toList_ofBytes (a b c d e f g h : UInt8) :
    (TileRows.ofBytes a b c d e f g h).toList = [a, b, c, d, e, f, g, h] := rfl

end TileAsm
