import TileAsm.Proofs.Listed

/-!
# Listing a part of a file

A part of a file is listed without looking at the rest of the file, so it need not be listed as the
whole file is: a part that starts in the middle of an instruction reads its operands as opcodes, and
one that ends there lists its first bytes one by one. What is shown here is that nothing else can go
wrong. A **boundary** is a place between two lines, before the first or after the last one, and a
part between two boundaries is listed exactly as it is in the whole (`listing_window`).

The reason is that a boundary cuts a listing into the listings of the two sides (`Listed.split`).
The back is listed from its first byte on in any case. For the front it has to be shown that its
last lines do not change when the bytes behind the cut are gone: an instruction before the cut ends
before it, and a byte that started no instruction starts none with fewer bytes behind it.
-/

namespace TileAsm

/-- A place where a listing can be cut: the offset of a line, or the end of the image. -/
def Image.IsBoundary (img : Image) (offset : Nat) : Prop :=
  offset = img.endOffset ∨ ∃ line ∈ img.listing, line.offset = offset

/-! ### Cutting a listing -/

namespace Listed

variable {offset k : Nat} {code : List UInt8} {lines : List ListingLine}

/-- A boundary behind the first line is one of the lines behind it. -/
theorem boundary_of_cons {line : ListingLine} {length : Nat} (hk : k ≠ line.offset)
    (h : k = length ∨ ∃ l ∈ line :: lines, l.offset = k) :
    k = length ∨ ∃ l ∈ lines, l.offset = k := by
  rcases h with hend | ⟨l, hl, hoffset⟩
  · exact .inl hend
  · rcases List.mem_cons.1 hl with rfl | hl
    · exact absurd hoffset.symm hk
    · exact .inr ⟨l, hl, hoffset⟩

/-- **A boundary cuts a listing in two.** -/
theorem split (h : Listed offset code lines)
    (hk : k = offset + code.length ∨ ∃ line ∈ lines, line.offset = k) :
    ∃ front back before after, code = front ++ back ∧ lines = before ++ after ∧
      offset + front.length = k ∧ Listed offset front before ∧ Listed k back after := by
  induction h with
  | nil offset =>
    rcases hk with rfl | ⟨line, hline, -⟩
    · exact ⟨[], [], [], [], rfl, rfl, rfl, .nil _, .nil _⟩
    · exact absurd hline (by simp)
  | @instruction offset d rest lines hd hrest ih =>
    by_cases hfirst : k = offset
    · subst hfirst
      exact ⟨[], d.encode ++ rest, [], _, rfl, rfl, rfl, .nil _, .instruction hd hrest⟩
    · rw [List.length_append, d.length_encode, ← Nat.add_assoc] at hk
      obtain ⟨front, back, before, after, rfl, rfl, rfl, hfront, hback⟩ :=
        ih (boundary_of_cons hfirst hk)
      refine ⟨d.encode ++ front, back, _ :: before, after, by simp, rfl, ?_,
        .instruction hd hfront, hback⟩
      rw [List.length_append, d.length_encode, Nat.add_assoc]
  | @byte offset b rest lines hb hrest ih =>
    by_cases hfirst : k = offset
    · subst hfirst
      exact ⟨[], b :: rest, [], _, rfl, rfl, rfl, .nil _, .byte hb hrest⟩
    · rw [List.length_cons, Nat.add_comm rest.length, ← Nat.add_assoc] at hk
      obtain ⟨front, back, before, after, rfl, rfl, rfl, hfront, hback⟩ :=
        ih (boundary_of_cons hfirst hk)
      -- an instruction that starts here now would have started here with `back` behind it
      have hb : Decoded.ofBytes? (b :: front) = none := by
        refine Option.eq_none_iff_forall_ne_some.2 fun d hd ↦ ?_
        have hmore := Decoded.ofBytes?_mono (List.prefix_append (b :: front) back) hd
        exact absurd (hb.symm.trans hmore) (by simp)
      refine ⟨b :: front, back, _ :: before, after, rfl, rfl, ?_, .byte hb hfront, hback⟩
      rw [List.length_cons, Nat.add_comm front.length, Nat.add_assoc]

/-- The lines of bytes that lie between two places start between them. -/
theorem filter_offset_eq_self (h : Listed offset code lines) {a b : Nat} (ha : a ≤ offset)
    (hb : offset + code.length ≤ b) :
    lines.filter (fun line ↦ a ≤ line.offset ∧ line.offset < b) = lines := by
  refine List.filter_eq_self.2 fun line hline ↦ ?_
  have := h.offset_of_mem hline
  rw [decide_eq_true_eq]
  omega

/-- Those of bytes that lie before or behind the two do not. -/
theorem filter_offset_eq_nil (h : Listed offset code lines) {a b : Nat}
    (hout : offset + code.length ≤ a ∨ b ≤ offset) :
    lines.filter (fun line ↦ a ≤ line.offset ∧ line.offset < b) = [] := by
  refine List.filter_eq_nil_iff.2 fun line hline ↦ ?_
  have := h.offset_of_mem hline
  rw [decide_eq_true_eq]
  omega

end Listed

/-! ### Parts of a file -/

/-- The part of a file between two places in it. -/
theorem Image.window_append (front part back : List UInt8) :
    window (front ++ part ++ back) front.length (some part.length) =
      .ok { base := front.length, bytes := part } := by
  have hskip : ¬ front.length > (front ++ part ++ back).length := by
    simp only [List.length_append]
    omega
  have hdrop : (front ++ part ++ back).drop front.length = part ++ back := by
    rw [List.append_assoc, List.drop_left]
  have hlength : ¬ part.length > (part ++ back).length := by
    rw [List.length_append]
    omega
  rw [window, if_neg hskip]
  dsimp only
  rw [hdrop, if_neg hlength, List.take_left]

/-- **A part between two boundaries is listed as it is in the whole.** The lines of the part are
those of the whole file whose offsets lie in it, with the same offsets, bytes and texts. -/
theorem listing_window (file : List UInt8) :
    ∃ whole, Image.window file 0 none = .ok whole ∧ whole.base = 0 ∧ whole.bytes = file ∧
      ∀ a b, whole.IsBoundary a → whole.IsBoundary b → a ≤ b →
        ∃ part, Image.window file a (some (b - a)) = .ok part ∧ part.base = a ∧
          part.endOffset = b ∧
          part.listing = whole.listing.filter fun line ↦ a ≤ line.offset ∧ line.offset < b := by
  refine ⟨{ base := 0, bytes := file }, rfl, rfl, rfl, fun a b ha hb hab ↦ ?_⟩
  have hwhole : Listed 0 file (Image.listing { base := 0, bytes := file }) :=
    listed_collect 0 file
  generalize hlines : Image.listing { base := 0, bytes := file } = lines at hwhole ⊢
  rw [Image.IsBoundary, hlines] at ha hb
  -- the back is cut off first, so that `a` is a boundary of what is left
  obtain ⟨inner, back, before, after, rfl, rfl, hinner, hbefore, hafter⟩ := hwhole.split hb
  have ha : a = 0 + inner.length ∨ ∃ line ∈ before, line.offset = a := by
    rcases ha with hend | ⟨line, hline, hoffset⟩
    · rw [Image.endOffset, List.length_append] at hend
      exact .inl (by omega)
    · rcases List.mem_append.1 hline with hline | hline
      · exact .inr ⟨line, hline, hoffset⟩
      · have := (hafter.offset_of_mem hline).1
        exact .inl (by omega)
  obtain ⟨front, part, first, kept, rfl, rfl, hfront, hfirst, hkept⟩ := hbefore.split ha
  rw [Nat.zero_add] at hfront
  rw [List.length_append] at hinner
  refine ⟨{ base := a, bytes := part }, ?_, rfl, ?_, ?_⟩
  · rw [← hfront, show b - front.length = part.length by omega]
    exact Image.window_append front part back
  · show a + part.length = b
    omega
  · rw [← listed_iff_eq_listing.1 hkept, List.filter_append, List.filter_append,
      hfirst.filter_offset_eq_nil (.inl (by omega)),
      hkept.filter_offset_eq_self (by omega) (by omega),
      hafter.filter_offset_eq_nil (.inr (by omega)), List.nil_append, List.append_nil]

/-- Two bytes that start no instruction, the second because it is cut off by the end of the file,
behind a text and in front of an instruction. -/
theorem listing_window_of_stray_bytes :
    let file := [0x18, 0x05, 0x61, 0x00, 0xFF, 0x10, 0x00]
    let whole : Image := { base := 0, bytes := file }
    Image.window file 0 none = .ok whole ∧ whole.IsBoundary 4 ∧ whole.IsBoundary 6 ∧
      ∃ part, Image.window file 4 (some 2) = .ok part ∧ part.base = 4 ∧ part.endOffset = 6 ∧
        part.listing.map ListingLine.text = [".byte 0xff", ".byte 0x10"] := by
  intro file whole
  obtain ⟨_, hwhole, -, -, hparts⟩ := listing_window file
  obtain rfl : _ = whole := (Except.ok.inj hwhole).symm
  have hlines : whole.listing =
      [{ offset := 0, bytes := [0x18, 0x05, 0x61, 0x00], text := "DTXT r5 \"a\"" },
        { offset := 4, bytes := [0xFF], text := ".byte 0xff" },
        { offset := 5, bytes := [0x10], text := ".byte 0x10" },
        { offset := 6, bytes := [0x00], text := "NOPE" }] := by decide +kernel
  have hoffsets : whole.listing.map ListingLine.offset = [0, 4, 5, 6] := by
    rw [hlines]
    rfl
  have hboundary : ∀ k ∈ [0, 4, 5, 6], whole.IsBoundary k := fun k hk ↦
    .inr (List.mem_map.1 (hoffsets ▸ hk))
  have hfour : whole.IsBoundary 4 := hboundary 4 (by decide)
  have hsix : whole.IsBoundary 6 := hboundary 6 (by decide)
  obtain ⟨part, hpart, hbase, hend, hlisting⟩ := hparts 4 6 hfour hsix (by decide)
  refine ⟨hwhole, hfour, hsix, part, hpart, hbase, hend, ?_⟩
  rw [hlisting, hlines]
  decide

end TileAsm
