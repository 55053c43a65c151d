import TileAsm.Proofs.Lossless

/-!
# Every byte has one line

A listing goes through an image in turns. A turn looks at the bytes from an offset to the end of the
image, lists what they start with, and moves on by the bytes of that line. It moves on by at least
one byte and never past the end, because a decoded instruction has a width, and the bytes that it
was decoded from have it too. So there are at most as many turns as bytes (`Listed.turns_eq`), and
after the last one every byte stands on one line:

```
lines.flatMap bytes = img.bytes
line.offset         = img.base + the bytes on the lines before it
```

Both follow from what the first line of a listing takes away from the bytes (`Listed.of_cons`), by
induction along the lines, and the second says all that there is to say about offsets. What stands
on a line is decided by the bytes at its offset alone (`Listed.lineAt?_of_mem`). They start no
instruction exactly if the text of the line is that of a byte, since no instruction is printed like
one.
-/

namespace TileAsm

open Text

/-! ### Turns -/

namespace Image

/-- One turn: the line that starts at an offset, if a byte stands there. -/
def lineAt? (img : Image) (offset : Nat) : Option ListingLine :=
  match img.tail? offset with
  | some (b :: rest) => some (.first offset b rest)
  | _ => none

/-- The lines of at most `n` turns, the first of them at the given offset. They end where no line
starts. -/
def turns (img : Image) : Nat → Nat → List ListingLine
  | 0, _ => []
  | n + 1, offset =>
    match img.lineAt? offset with
    | none => []
    | some line => line :: img.turns n (offset + line.bytes.length)

variable {img : Image} {offset : Nat}

theorem tail?_base (img : Image) : img.tail? img.base = some img.bytes := by
  rw [tail?, endOffset, if_pos (by omega), Nat.sub_self, List.drop_zero]

theorem tail?_add {front rest : List UInt8} (h : img.tail? offset = some (front ++ rest)) :
    img.tail? (offset + front.length) = some rest := by
  unfold tail? at h
  split at h
  · rename_i hrange
    have hdrop : img.bytes.drop (offset - img.base) = front ++ rest := Option.some.inj h
    have hlength := congrArg List.length hdrop
    rw [List.length_drop, List.length_append] at hlength
    rw [endOffset] at hrange
    have hsub : offset + front.length - img.base = offset - img.base + front.length := by omega
    rw [tail?, endOffset, if_pos (by omega), hsub, ← List.drop_drop, hdrop, List.drop_left]
  · exact absurd h (by simp)

theorem lineAt?_eq_some_iff {line : ListingLine} :
    img.lineAt? offset = some line ↔
      ∃ b rest, img.tail? offset = some (b :: rest) ∧ ListingLine.first offset b rest = line := by
  rw [lineAt?]
  rcases img.tail? offset with - | - | ⟨b, rest⟩ <;> simp

end Image

namespace Listed

variable {img : Image} {offset : Nat} {code : List UInt8} {line : ListingLine}
  {lines : List ListingLine}

/-! ### Lines follow each other -/

theorem eq_nil (h : Listed offset code []) : code = [] := by
  rcases h with _ | _ | _
  rfl

/-- The first line takes its bytes from the front, and the others list what is left. -/
theorem of_cons (h : Listed offset code (line :: lines)) :
    line.offset = offset ∧ 0 < line.bytes.length ∧
      ∃ rest, code = line.bytes ++ rest ∧ Listed (offset + line.bytes.length) rest lines := by
  rcases h with _ | @⟨_, d, rest, _, hd, hrest⟩ | @⟨_, b, rest, _, hb, hrest⟩
  · refine ⟨rfl, ?_, rest, rfl, ?_⟩
    · rw [d.length_encode]
      exact d.width_pos
    · rw [d.length_encode]
      exact hrest
  · exact ⟨rfl, Nat.one_pos, rest, rfl, hrest⟩

/-- The lines of a row of bytes hold these bytes. -/
theorem flatMap_bytes (h : Listed offset code lines) : lines.flatMap ListingLine.bytes = code := by
  induction lines generalizing offset code with
  | nil => exact h.eq_nil.symm
  | cons line lines ih =>
    obtain ⟨-, -, rest, rfl, hrest⟩ := h.of_cons
    rw [List.flatMap_cons, ih hrest]

/-- A line starts behind the bytes on the lines before it. -/
theorem offset_of_getElem? (h : Listed offset code lines) {i : Nat} (hi : lines[i]? = some line) :
    line.offset = offset + ((lines.take i).flatMap ListingLine.bytes).length := by
  induction lines generalizing offset code i with
  | nil => exact absurd hi (by simp)
  | cons first lines ih =>
    obtain ⟨hoffset, -, rest, rfl, hrest⟩ := h.of_cons
    match i with
    | 0 =>
      obtain rfl : first = line := Option.some.inj hi
      exact hoffset
    | i + 1 =>
      rw [List.take_succ_cons, List.flatMap_cons, List.length_append, ← Nat.add_assoc]
      exact ih hrest hi

/-- The next line starts where a line ends. -/
theorem offset_next (h : Listed offset code lines) {i : Nat} {next : ListingLine}
    (hi : lines[i]? = some line) (hnext : lines[i + 1]? = some next) :
    next.offset = line.offset + line.bytes.length := by
  rw [h.offset_of_getElem? hnext, h.offset_of_getElem? hi, List.take_add_one, hi,
    List.flatMap_append, List.length_append, Nat.add_assoc]
  simp

/-- The last line ends where the bytes do. -/
theorem offset_last (h : Listed offset code lines) (hline : lines.getLast? = some line) :
    line.offset + line.bytes.length = offset + code.length := by
  obtain ⟨before, rfl⟩ := List.getLast?_eq_some_iff.1 hline
  have hi : (before ++ [line])[before.length]? = some line := by simp
  rw [h.offset_of_getElem? hi, ← h.flatMap_bytes, List.take_left, List.flatMap_append,
    List.length_append, Nat.add_assoc]
  simp

/-! ### The turns of a listing -/

/-- A turn gives the first line, if there is one. -/
theorem lineAt?_eq_head? (h : Listed offset code lines) (htail : img.tail? offset = some code) :
    img.lineAt? offset = lines.head? := by
  rcases h with _ | @⟨_, d, rest, lines, hd, -⟩ | @⟨_, b, rest, lines, hb, -⟩
  · rw [Image.lineAt?, htail]
    rfl
  · exact Image.lineAt?_eq_some_iff.2 ⟨_, _, htail, ListingLine.first_encode_append hd offset rest⟩
  · exact Image.lineAt?_eq_some_iff.2 ⟨_, _, htail, ListingLine.first_of_ofBytes?_eq_none hb offset⟩

/-- Every line is what the bytes at its offset give. -/
theorem lineAt?_of_mem (h : Listed offset code lines) (htail : img.tail? offset = some code)
    (hline : line ∈ lines) : img.lineAt? line.offset = some line := by
  induction lines generalizing offset code with
  | nil => exact absurd hline List.not_mem_nil
  | cons first lines ih =>
    obtain ⟨hoffset, -, rest, rfl, hrest⟩ := h.of_cons
    rcases List.mem_cons.1 hline with rfl | hline
    · rw [hoffset]
      exact h.lineAt?_eq_head? htail
    · exact ih hrest (Image.tail?_add htail) hline

/-- **The turns come to an end.** As many turns as there are bytes give all lines, and to allow more
of them gives no more. -/
theorem turns_eq (h : Listed offset code lines) (htail : img.tail? offset = some code) {n : Nat}
    (hn : code.length ≤ n) : img.turns n offset = lines := by
  induction lines generalizing offset code n with
  | nil =>
    match n with
    | 0 => rfl
    | n + 1 => rw [Image.turns, h.lineAt?_eq_head? htail]; rfl
  | cons line lines ih =>
    have hfirst := h.lineAt?_eq_head? htail
    obtain ⟨-, hpos, rest, rfl, hrest⟩ := h.of_cons
    rw [List.length_append] at hn
    match n with
    | 0 => omega
    | n + 1 =>
      -- the line takes a byte away for the turn that it takes
      rw [Image.turns, hfirst]
      show line :: img.turns n (offset + line.bytes.length) = _
      rw [ih hrest (Image.tail?_add htail) (by omega)]

end Listed

/-! ### What stands on a line -/

/-- A line whose bytes start an instruction holds that, and they have room for it. -/
theorem ListingLine.first_of_ofBytes?_eq_some {b : UInt8} {rest : List UInt8} {d : Decoded}
    (h : Decoded.ofBytes? (b :: rest) = some d) (offset : Nat) :
    d.width ≤ (b :: rest).length ∧
      first offset b rest = { offset, bytes := (b :: rest).take d.width, text := d.render } := by
  refine ⟨(Decoded.take_width_of_ofBytes? h).1, ?_⟩
  rw [first, h]

/-- Only a byte that starts no instruction is printed as a byte. -/
theorem ListingLine.text_first_eq_byte_iff {b : UInt8} {rest : List UInt8} {offset : Nat} :
    (∃ c, (first offset b rest).text = ".byte " ++ hexByte c) ↔
      Decoded.ofBytes? (b :: rest) = none := by
  rcases hd : Decoded.ofBytes? (b :: rest) with - | d
  · rw [first_of_ofBytes?_eq_none hd]
    exact iff_of_true ⟨b, rfl⟩ rfl
  · rw [(first_of_ofBytes?_eq_some hd offset).2]
    refine iff_of_false ?_ (by simp)
    rintro ⟨c, htext⟩
    exact d.render_ne_byteText c htext

/-- **A listing neither loses nor repeats a byte, and it ends.** It is complete after as many turns
as the image has bytes. Its lines hold these bytes in their order; the first line starts where the
image starts, each later one where the line before it ends, and the last one ends where the image
ends. Every line has at least one byte. The instruction that the bytes at its offset start with lies
within them, and if there is none then the line is that of one byte, and printed so only then. -/
theorem listing_covers_image (img : Image) :
    let lines := img.listing
    (∀ n, img.bytes.length ≤ n → img.turns n img.base = lines) ∧
    lines.flatMap ListingLine.bytes = img.bytes ∧
    (∀ line, lines.head? = some line → line.offset = img.base) ∧
    (∀ i line next, lines[i]? = some line → lines[i + 1]? = some next →
      next.offset = line.offset + line.bytes.length) ∧
    (∀ line, lines.getLast? = some line → line.offset + line.bytes.length = img.endOffset) ∧
    ∀ line ∈ lines, 1 ≤ line.bytes.length ∧
      ∃ b rest, img.tail? line.offset = some (b :: rest) ∧
        (∀ d, Decoded.ofBytes? (b :: rest) = some d →
          d.width ≤ (b :: rest).length ∧ line.bytes = (b :: rest).take d.width ∧
            line.text = d.render) ∧
        (Decoded.ofBytes? (b :: rest) = none →
          line.bytes = [b] ∧ line.text = ".byte " ++ hexByte b) ∧
        ((∃ c, line.text = ".byte " ++ hexByte c) ↔ Decoded.ofBytes? (b :: rest) = none) := by
  intro lines
  have h : Listed img.base img.bytes lines := listed_iff_eq_listing.2 rfl
  refine ⟨fun n hn ↦ h.turns_eq img.tail?_base hn, h.flatMap_bytes, fun line hline ↦ ?_,
    fun i line next hi hnext ↦ h.offset_next hi hnext, fun line hline ↦ h.offset_last hline,
    fun line hline ↦ ?_⟩
  · rw [List.head?_eq_getElem?] at hline
    exact h.offset_of_getElem? hline
  · obtain ⟨b, rest, htail, hfirst⟩ :=
      Image.lineAt?_eq_some_iff.1 (h.lineAt?_of_mem img.tail?_base hline)
    generalize line.offset = offset at htail hfirst
    subst hfirst
    refine ⟨ListingLine.length_bytes_first_pos offset b rest, b, rest, htail, fun d hd ↦ ?_,
      fun hnone ↦ ?_, ListingLine.text_first_eq_byte_iff⟩
    · obtain ⟨hwidth, hline⟩ := ListingLine.first_of_ofBytes?_eq_some hd offset
      rw [hline]
      exact ⟨hwidth, rfl, rfl⟩
    · rw [ListingLine.first_of_ofBytes?_eq_none hnone]
      exact ⟨rfl, rfl⟩

end TileAsm
