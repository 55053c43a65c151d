import TileAsm.Proofs.Listed
import TileAsm.Proofs.Printing

/-!
# Listings lose nothing

The texts of a listing determine the bytes that are listed, for every row of bytes: one that nobody
assembled, or one with bytes that start no instruction. No two records are printed alike, and none
is printed like a single byte. The bytes on a line are those of its record, so lines with the same
texts list the same bytes (`Listed.eq_of_map_text_eq`). A printed listing has its texts, each behind
the first colon of a row: no text holds a line feed, and no offset a colon
(`map_text_eq_of_renderListing_eq`).
-/

namespace TileAsm

open Text

/-! ### Texts of lines -/

theorem Decoded.render_ne_byteText (d : Decoded) (b : UInt8) :
    d.render ≠ ".byte " ++ hexByte b := by
  have hsplit : ".byte " ++ hexByte b = ".byte" ++ (" " ++ hexByte b) := by
    rw [← String.append_assoc]
    rfl
  rw [hsplit]
  exact d.render_ne_byte _

namespace Listed

variable {offset offset' : Nat} {code code' : List UInt8} {lines lines' : List ListingLine}

theorem isPrintable_of_mem_text (h : Listed offset code lines) {line : ListingLine}
    (hline : line ∈ lines) {c : Char} (hc : c ∈ line.text.toList) :
    Quoted.isPrintable c = true := by
  induction h with
  | nil => exact absurd hline List.not_mem_nil
  | instruction _ _ ih =>
    rcases List.mem_cons.1 hline with rfl | hline
    · exact Decoded.isPrintable_of_mem_render hc
    · exact ih hline
  | @byte _ b _ _ _ _ ih =>
    rcases List.mem_cons.1 hline with rfl | hline
    · rw [String.toList_append, List.mem_append] at hc
      rcases hc with hc | hc
      · exact List.all_eq_true.1 (by decide : ".byte ".toList.all Quoted.isPrintable = true) c hc
      · exact Quoted.isPrintable_of_isTokenChar ((isToken_hexByte b).2 c hc)
    · exact ih hline

/-- **Lines with the same texts list the same bytes.** -/
theorem eq_of_map_text_eq (h : Listed offset code lines) (h' : Listed offset' code' lines')
    (htexts : lines.map ListingLine.text = lines'.map ListingLine.text) : code = code' := by
  induction h generalizing offset' code' lines' with
  | nil =>
    rcases h' with _ | _ | _
    · rfl
    · exact absurd htexts (List.cons_ne_nil _ _).symm
    · exact absurd htexts (List.cons_ne_nil _ _).symm
  | @instruction _ d _ _ hd _ ih =>
    rcases h' with _ | ⟨hd', hrest'⟩ | _
    · exact absurd htexts (List.cons_ne_nil _ _)
    · obtain ⟨hrender, htexts⟩ := List.cons.inj htexts
      rw [Decoded.render_inj hd hd' hrender, ih hrest' htexts]
    · exact absurd (List.cons.inj htexts).1 (d.render_ne_byteText _)
  | @byte _ b _ _ _ _ ih =>
    rcases h' with _ | @⟨_, d'⟩ | ⟨_, hrest'⟩
    · exact absurd htexts (List.cons_ne_nil _ _)
    · exact absurd (List.cons.inj htexts).1.symm (d'.render_ne_byteText _)
    · obtain ⟨hbyte, htexts⟩ := List.cons.inj htexts
      rw [Literal.hexByte_inj ((String.append_right_inj _).1 hbyte), ih hrest' htexts]

end Listed

/-! ### Printed listings -/

/-- A row of a printed listing without bytes: the offset, a colon, the text. -/
theorem ListingLine.toList_render (line : ListingLine) :
    (line.render false).toList =
      ((hex 4 line.offset).toList ++ ':' :: ' ' :: line.text.toList) ++ ['\n'] := by
  simp [render]

theorem toList_renderListing_cons (line : ListingLine) (lines : List ListingLine) :
    (renderListing (line :: lines) false).toList =
      ((hex 4 line.offset).toList ++ ':' :: ' ' :: line.text.toList) ++
        '\n' :: (renderListing lines false).toList := by
  rw [renderListing, List.map_cons, String.toList_join, List.flatMap_cons,
    ListingLine.toList_render, renderListing, String.toList_join]
  simp

/-- A printed listing has its texts. -/
theorem map_text_eq_of_renderListing_eq {lines lines' : List ListingLine}
    (hlines : ∀ line ∈ lines, '\n' ∉ line.text.toList)
    (hlines' : ∀ line ∈ lines', '\n' ∉ line.text.toList)
    (h : renderListing lines false = renderListing lines' false) :
    lines.map ListingLine.text = lines'.map ListingLine.text := by
  have hoffset : ∀ c, isTokenChar c = false → ∀ n, c ∉ (hex 4 n).toList := fun c hc n hmem ↦
    absurd ((isToken_hex 4 n).2 c hmem) (by simp [hc])
  have hrow : ∀ line : ListingLine, '\n' ∉ line.text.toList →
      '\n' ∉ (hex 4 line.offset).toList ++ ':' :: ' ' :: line.text.toList := by
    intro line hline
    have := hoffset '\n' (by decide) line.offset
    simp [this, hline]
  have hlist := congrArg String.toList h
  induction lines generalizing lines' with
  | nil =>
    match lines' with
    | [] => rfl
    | line' :: lines' =>
      rw [toList_renderListing_cons] at hlist
      exact absurd hlist (by simp [renderListing])
  | cons line lines ih =>
    match lines' with
    | [] =>
      rw [toList_renderListing_cons] at hlist
      exact absurd hlist (by simp [renderListing])
    | line' :: lines' =>
      rw [toList_renderListing_cons, toList_renderListing_cons] at hlist
      -- the first line feed ends the first row, and the first colon its offset
      obtain ⟨hfirst, hrest⟩ := append_cons_inj (hrow line (hlines line (by simp)))
        (hrow line' (hlines' line' (by simp))) hlist
      obtain ⟨-, htext⟩ := append_cons_inj (hoffset ':' (by decide) _) (hoffset ':' (by decide) _)
        hfirst
      have ih := ih (fun l hl ↦ hlines l (by simp [hl])) (fun l hl ↦ hlines' l (by simp [hl]))
        (String.toList_inj.1 hrest) hrest
      rw [List.map_cons, List.map_cons, String.toList_inj.1 (List.cons.inj htext).2, ih]

/-- **A listing loses nothing.** Images with the same texts have the same bytes, and so have images
that are printed alike, whether or not anything can be assembled to them. -/
theorem listing_lossless (base : Nat) (bytes bytes' : List UInt8) :
    let lines := Image.listing { base, bytes }
    let lines' := Image.listing { base, bytes := bytes' }
    (lines.map ListingLine.text = lines'.map ListingLine.text ↔ bytes = bytes') ∧
      (renderListing lines false = renderListing lines' false ↔ bytes = bytes') := by
  intro lines lines'
  have h : Listed base bytes lines := listed_collect base bytes
  have h' : Listed base bytes' lines' := listed_collect base bytes'
  have hfeed : ∀ {code found}, Listed base code found → ∀ line ∈ found, '\n' ∉ line.text.toList :=
    fun hfound line hline hmem ↦
      absurd (hfound.isPrintable_of_mem_text hline hmem) (by decide)
  refine ⟨⟨fun htexts ↦ ?_, ?_⟩, ⟨fun hrender ↦ ?_, ?_⟩⟩
  · exact h.eq_of_map_text_eq h' htexts
  · rintro rfl
    rfl
  · exact h.eq_of_map_text_eq h' (map_text_eq_of_renderListing_eq (hfeed h) (hfeed h') hrender)
  · rintro rfl
    rfl

end TileAsm
