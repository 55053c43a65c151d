import TileAsm.Proofs.NumberGrammar
import TileAsm.Proofs.Reading

/-!
# Which tile a number names

`TILE` takes nine numbers: that of the tile, which is to be at most 63, and its rows. A number may
have any number of digits and stands for a byte, so the reader looks at the number of the tile
modulo 256, just as it does at the rows. The tile that is defined has this number, and it is what
decides between an instruction and a rejection (`parse_tile_numbers`): `TILE 256` defines tile 0.

A row of operands is said by `Text.Separated`, which knows nothing of how the reader finds the
words.
-/

namespace TileAsm

open Text

/-! ### Words behind blanks -/

/-- Words with one or more blanks in front of each, and what may be blanks behind the last one. -/
inductive Text.Separated : List (List Char) → List Char → Prop
  | nil {blanks : List Char} (h : isBlankText blanks = true) : Separated [] blanks
  | cons {blanks w rest : List Char} {ws : List (List Char)} (hne : blanks ≠ [])
    (hblanks : isBlankText blanks = true) (h : Separated ws rest) :
    Separated (w :: ws) (blanks ++ (w ++ rest))

namespace Text.Separated

variable {ws : List (List Char)} {text : List Char}

theorem isBlank_head {c : Char} {rest : List Char} (h : Separated ws text)
    (htext : text = c :: rest) : isBlank c = true := by
  rcases h with hblanks | ⟨hne, hblanks, -⟩
  · rw [htext, isBlankText_cons, Bool.and_eq_true] at hblanks
    exact hblanks.1
  · obtain ⟨b, blanks, rfl⟩ := List.exists_cons_of_ne_nil hne
    rw [isBlankText_cons, Bool.and_eq_true] at hblanks
    exact (List.cons.inj htext).1 ▸ hblanks.1

theorem ne_nil {w : List Char} (h : Separated (w :: ws) text) : text ≠ [] := by
  rcases h with - | ⟨hne, -, -⟩
  simp [hne]

/-- Words with a space in front of each. -/
theorem flatMap_space (ws : List (List Char)) : Separated ws (ws.flatMap (' ' :: ·)) := by
  induction ws with
  | nil => exact .nil rfl
  | cons w ws ih =>
    have hspace : isBlankText [' '] = true := by decide
    exact .cons (List.cons_ne_nil ' ' []) hspace ih

/-- The reader finds the words. -/
theorem words_eq (h : Separated ws text) (hws : ∀ w ∈ ws, IsToken w) : words text = ws := by
  induction h with
  | nil hblanks => exact words_of_isBlankText hblanks
  | @cons blanks w rest ws hne hblanks h ih =>
    have hw := words_of_isToken (hws w (by simp))
    have ih := ih fun v hv ↦ hws v (List.mem_cons_of_mem w hv)
    rw [words_blanks_append hblanks]
    -- a word ends at the end of the text or at the blank in front of the next word
    rcases hrest : rest with _ | ⟨c, tail⟩
    · rw [hrest] at ih
      rw [List.append_nil, hw, ← ih]
      rfl
    · have hc := h.isBlank_head hrest
      rw [hrest, ← List.nil_append (c :: tail), words_append_cons hc] at ih
      rw [words_append_cons hc, hw, ← ih]
      rfl

end Text.Separated

/-- A word is a token if it is one in capitals. -/
theorem Text.isToken_of_map_toUpper {word : List Char} (h : IsToken (word.map Char.toUpper)) :
    IsToken word := by
  refine ⟨fun hnil ↦ h.1 (by rw [hnil]; rfl), fun c hc ↦ ?_⟩
  have hupper := h.2 c.toUpper (List.mem_map_of_mem hc)
  by_cases hlower : c.isLower = true
  · have hclass : ((c.isUpper || c.isLower) || c.isDigit) = true := by simp [hlower]
    exact isTokenChar_of_isAlphanum hclass
  · have hsame : c.toUpper = c := dif_neg fun ⟨hlow, hhigh⟩ ↦
      hlower (Bool.and_eq_true_iff.2 ⟨decide_eq_true hlow, decide_eq_true hhigh⟩)
    rwa [hsame] at hupper

/-! ### Numbers as operands -/

namespace Instruction

variable {first : List Char} {others : List (List Char)} {n : Nat} {values : List Nat}

theorem parseTileId_of_denotes (h : Literal.Denotes first n) :
    parseTileId first =
      if n % 256 ≤ 63 then .ok (UInt8.ofNat n)
      else .error (.tileOutOfRange (String.ofList first)) := by
  have hrange : UInt8.ofNat n > 63 ↔ ¬ n % 256 ≤ 63 := by
    rw [gt_iff_lt, UInt8.lt_iff_toNat_lt, UInt8.toNat_ofNat', Nat.not_le]
    rfl
  rw [parseTileId, h.parse_eq, ok_bind]
  by_cases hn : n % 256 ≤ 63
  · rw [if_neg (hrange.not.2 (not_not_intro hn)), if_pos hn]
    rfl
  · rw [if_pos (hrange.2 hn), if_neg hn]

/-- Nine numbers are read as a tile, unless the first is out of range. -/
theorem parseTile_of_words {params : List Char} (hwords : words params = first :: others)
    (hfirst : Literal.Denotes first n) (hothers : List.Forall₂ Literal.Denotes others values)
    (hlength : others.length = 8) :
    ∃ rows : TileRows, rows.toList = values.map UInt8.ofNat ∧
      parseTile params =
        if n % 256 ≤ 63 then .ok (.tile (UInt8.ofNat n) rows)
        else .error (.tileOutOfRange (String.ofList first)) := by
  obtain ⟨a, b, c, d, e, f, g, h, rfl⟩ : ∃ a b c d e f g h, others = [a, b, c, d, e, f, g, h] :=
    match others, hlength with
    | [a, b, c, d, e, f, g, h], _ => ⟨a, b, c, d, e, f, g, h, rfl⟩
  simp only [List.forall₂_cons_left_iff, List.forall₂_nil_left_iff] at hothers
  obtain ⟨a', _, ha, ⟨b', _, hb, ⟨c', _, hc, ⟨d', _, hd, ⟨e', _, he, ⟨f', _, hf, ⟨g', _, hg,
    ⟨h', _, hh, rfl, rfl⟩, rfl⟩, rfl⟩, rfl⟩, rfl⟩, rfl⟩, rfl⟩, rfl⟩ := hothers
  refine ⟨.ofBytes (.ofNat a') (.ofNat b') (.ofNat c') (.ofNat d') (.ofNat e') (.ofNat f')
    (.ofNat g') (.ofNat h'), TileRows.toList_ofBytes .., ?_⟩
  rw [parseTile, hwords]
  dsimp only
  rw [parseTileId_of_denotes hfirst]
  by_cases hn : n % 256 ≤ 63
  · rw [if_pos hn, if_pos hn, ok_bind]
    simp only [ha.parse_eq, hb.parse_eq, hc.parse_eq, hd.parse_eq, he.parse_eq, hf.parse_eq,
      hg.parse_eq, hh.parse_eq, ok_bind]
    rfl
  · rw [if_neg hn, if_neg hn, error_bind]

end Instruction

/-- **The number of a tile counts modulo 256.** Behind the mnemonic, in capitals or not, stand nine
numbers with blanks in front of each. They are an instruction exactly if the first of them is at
most 63 modulo 256, which is then the number of the tile, and the others modulo 256 are its rows.
Otherwise the first one is reported, as it is written. -/
theorem parse_tile_numbers {mnemonic params first : List Char} {others : List (List Char)} {n : Nat}
    {values : List Nat} (hmnemonic : mnemonic.map Char.toUpper = "TILE".toList)
    (hparams : Separated (first :: others) params) (hlength : others.length = 8)
    (hnumbers : List.Forall₂ Literal.Denotes (first :: others) (n :: values)) :
    ((∃ id rows, Instruction.parse (mnemonic ++ params) = .ok (.tile id rows)) ↔ n % 256 ≤ 63) ∧
    (∀ id rows, Instruction.parse (mnemonic ++ params) = .ok (.tile id rows) →
      id.toNat = n % 256 ∧ rows.toList.map UInt8.toNat = values.map (· % 256)) ∧
    (63 < n % 256 → Instruction.parse (mnemonic ++ params) =
      .error (.tileOutOfRange (String.ofList first))) := by
  have hmnemonic : mnemonic.map Char.toUpper = Opcode.tile.mnemonic.toList := hmnemonic
  have htoken : IsToken mnemonic :=
    isToken_of_map_toUpper (hmnemonic ▸ Opcode.tile.isToken_mnemonic)
  have htokens : ∀ w ∈ first :: others, IsToken w :=
    ((List.forall₂_and_left _ _).1 (hnumbers.imp fun _ _ h ↦ ⟨h.isToken, h⟩)).1
  -- the operands start with the blank that ends the mnemonic; what is behind it is trimmed
  obtain ⟨c, rest, hcons⟩ := List.exists_cons_of_ne_nil hparams.ne_nil
  have hc := hparams.isBlank_head hcons
  have hcut : cutToken (mnemonic ++ params) = (mnemonic, trim rest) := by
    rw [hcons, cutToken_append_cons htoken hc]
  have hwords : words (trim rest) = first :: others := by
    rw [words_trim, ← hparams.words_eq htokens, hcons]
    exact (words_append_cons hc [] rest).symm
  obtain ⟨hfirst, hothers⟩ := List.forall₂_cons.1 hnumbers
  obtain ⟨rows, hrows, htile⟩ := Instruction.parseTile_of_words hwords hfirst hothers hlength
  have hparse : Instruction.parse (mnemonic ++ params) = Instruction.parseTile (trim rest) := by
    have htag : (cutToken (mnemonic ++ params)).1.map Char.toUpper =
        Opcode.tile.mnemonic.toList := by rwa [hcut]
    rw [Instruction.parse_eq_parseOperands htag, hcut]
    rfl
  rw [hparse, htile]
  by_cases hn : n % 256 ≤ 63
  · rw [if_pos hn]
    refine ⟨iff_of_true ⟨_, rows, rfl⟩ hn, ?_, fun hlt ↦ absurd hn (Nat.not_le.2 hlt)⟩
    intro id rows' heq
    obtain ⟨rfl, rfl⟩ := Instruction.tile.inj (Except.ok.inj heq)
    refine ⟨UInt8.toNat_ofNat', ?_⟩
    rw [hrows, List.map_map]
    exact List.map_congr_left fun v _ ↦ UInt8.toNat_ofNat'
  · rw [if_neg hn]
    refine ⟨iff_of_false ?_ hn, fun id rows' heq ↦ absurd heq (by simp), fun _ ↦ rfl⟩
    rintro ⟨id, rows', heq⟩
    exact absurd heq (by simp)

/-- Behind a tab and a no-break space 319 in hexadecimal names tile 63, and 64 names none. -/
theorem parse_tile_numbers_around_range :
    let zeros : List (List Char) := List.replicate 8 ['0']
    let text (first : List Char) : List Char :=
      "tile".toList ++ (['\t', '\u00a0'] ++ (first ++ zeros.flatMap (' ' :: ·)))
    Literal.Denotes ['0', 'x', '1', '3', 'F'] 319 ∧ Literal.Denotes ['6', '4'] 64 ∧
      (∃ id rows, Instruction.parse (text ['0', 'x', '1', '3', 'F']) = .ok (.tile id rows)) ∧
      Instruction.parse (text ['6', '4']) = .error (.tileOutOfRange "64") := by
  intro zeros text
  have hzeros : List.Forall₂ Literal.Denotes zeros (List.replicate 8 0) :=
    List.forall₂_iff_zip.2 ⟨rfl, fun hmem ↦ by
      rw [List.zip_replicate, List.mem_replicate, Prod.mk.injEq] at hmem
      obtain ⟨-, rfl, rfl⟩ := hmem
      exact .decimal (.single (.small (d := 0) (by decide)))⟩
  have hfirst : Literal.Denotes ['0', 'x', '1', '3', 'F'] 319 :=
    .hexadecimal (show Literal.Digits 16
        ([Nat.digitChar 1] ++ [Nat.digitChar 3] ++ [(Nat.digitChar 15).toUpper])
        ((1 * 16 + 3) * 16 + 15) from
      .snoc (.snoc (.single (.small (by decide))) (.small (by decide))) (.capital (by decide)))
  have hbeyond : Literal.Denotes ['6', '4'] 64 :=
    .decimal (show Literal.Digits 10 ([Nat.digitChar 6] ++ [Nat.digitChar 4]) (6 * 10 + 4) from
      .snoc (.single (.small (by decide))) (.small (by decide)))
  have hblanks : isBlankText ['\t', '\u00a0'] = true := by decide
  have hparams : ∀ first, Separated (first :: zeros)
      (['\t', '\u00a0'] ++ (first ++ zeros.flatMap (' ' :: ·))) := fun first ↦
    .cons (List.cons_ne_nil _ _) hblanks (.flatMap_space zeros)
  have htile : "tile".toList.map Char.toUpper = "TILE".toList := by decide
  exact ⟨hfirst, hbeyond,
    (parse_tile_numbers htile (hparams _) rfl (.cons hfirst hzeros)).1.2 (by decide),
    (parse_tile_numbers htile (hparams _) rfl (.cons hbeyond hzeros)).2.2 (by decide)⟩

/-- A number above 255 is not out of range by itself: 256 names tile 0. -/
theorem parse_tile_of_wrapped_number :
    let zeros : List (List Char) := List.replicate 8 ['0']
    let params : List Char := (['2', '5', '6'] :: zeros).flatMap (' ' :: ·)
    Separated (['2', '5', '6'] :: zeros) params ∧ Literal.Denotes ['2', '5', '6'] 256 ∧
      Literal.Denotes ['0'] 0 ∧
      ¬ ((∃ id rows, Instruction.parse ("TILE".toList ++ params) = .ok (.tile id rows)) ↔
        256 ≤ 63) := by
  intro zeros params
  have hfirst : Literal.Denotes ['2', '5', '6'] 256 :=
    .decimal (show Literal.Digits 10
        ([Nat.digitChar 2] ++ [Nat.digitChar 5] ++ [Nat.digitChar 6]) ((2 * 10 + 5) * 10 + 6) from
      .snoc (.snoc (.single (.small (by decide))) (.small (by decide))) (.small (by decide)))
  have hzero : Literal.Denotes ['0'] 0 := .decimal (.single (.small (d := 0) (by decide)))
  have hparse : Instruction.parse ("TILE".toList ++ params) =
      .ok (.tile 0 (.ofBytes 0 0 0 0 0 0 0 0)) := by decide +kernel
  exact ⟨.flatMap_space _, hfirst, hzero, fun h ↦ absurd (h.1 ⟨_, _, hparse⟩) (by decide)⟩

end TileAsm
