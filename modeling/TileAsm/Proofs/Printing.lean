import TileAsm.Proofs.Reading

/-!
# No two records are printed alike

A printed record says which bytes it was read from, also where nobody would write such a text: with
strings that hold quotes, backslashes and bytes that cannot be printed. This is not a matter of
reading the text back: the parser refuses many such texts, and it reads `\x41` and `\\x41` as the
same string. It is shown from the front of a text to its end (`Decoded.render_inj`):

* all mnemonics are four letters long, so the text begins with the opcode, and that decides which
  operands follow;
* no register and no number holds a space, so a space ends it;
* a quoted string ends at its own closing quote, since an escape is told by its first two characters
  and no quote stands in a string without one (`Quoted.escapeByte_append_inj`).

What is printed is printable, whatever the bytes are (`Decoded.isPrintable_of_mem_render`).
-/

namespace TileAsm

open Text

/-! ### Quoted strings -/

namespace Text.Quoted

theorem isPrintable_of_isTokenChar {c : Char} (h : isTokenChar c = true) :
    isPrintable c = true := by
  obtain ⟨hlow, hhigh, -⟩ := toNat_of_isTokenChar h
  exact isPrintable_iff.2 ⟨hlow.le, hhigh⟩

/-- A byte is written as itself, behind a backslash, or by its number. -/
theorem escapeByte_eq (b : UInt8) :
    (∃ c, escapeByte b = [c] ∧ c ≠ '"' ∧ c ≠ '\\' ∧ isPrintable c = true ∧ c.toNat = b.toNat) ∨
      (∃ c, escapeByte b = ['\\', c] ∧ c ≠ 'x' ∧ isPrintable c = true ∧ c.toNat = b.toNat) ∨
      escapeByte b = '\\' :: 'x' :: hexDigits 2 b.toNat := by
  have hnat := toNat_ofNat_toNat b
  unfold escapeByte
  generalize Char.ofNat b.toNat = c at hnat
  dsimp only
  split
  · rename_i hc
    refine .inr (.inl ⟨c, rfl, ?_⟩)
    rcases (by simpa using hc : c = '"' ∨ c = '\\') with rfl | rfl
    · exact ⟨by decide, by decide, hnat⟩
    · exact ⟨by decide, by decide, hnat⟩
  · rename_i hc
    have hne : c ≠ '"' ∧ c ≠ '\\' := by simpa using hc
    split
    · rename_i hprint
      exact .inl ⟨c, rfl, hne.1, hne.2, hprint, hnat⟩
    · exact .inr (.inr rfl)

theorem length_hexDigits_byte (b : UInt8) : (hexDigits 2 b.toNat).length = 2 := by
  have hall : ∀ n < 256, (hexDigits 2 n).length = 2 := by decide +kernel
  exact hall b.toNat b.toNat_lt

/-- **Escapes are a prefix code.** -/
theorem escapeByte_append_inj {a b : UInt8} {s t : List Char}
    (h : escapeByte a ++ s = escapeByte b ++ t) : a = b ∧ s = t := by
  rcases escapeByte_eq a with ⟨c, ha, -, hc, -, hca⟩ | ⟨c, ha, hc, -, hca⟩ | ha <;>
    rcases escapeByte_eq b with ⟨c', hb, -, hc', -, hcb⟩ | ⟨c', hb, hc', -, hcb⟩ | hb <;>
    rw [ha, hb] at h
  · obtain ⟨rfl, rfl⟩ := List.cons.inj h
    exact ⟨UInt8.toNat_inj.1 (hca.symm.trans hcb), rfl⟩
  · exact absurd (List.cons.inj h).1 hc
  · exact absurd (List.cons.inj h).1 hc
  · exact absurd (List.cons.inj h).1.symm hc'
  · obtain ⟨rfl, rfl⟩ := List.cons.inj (List.cons.inj h).2
    exact ⟨UInt8.toNat_inj.1 (hca.symm.trans hcb), rfl⟩
  · exact absurd (List.cons.inj (List.cons.inj h).2).1 hc
  · exact absurd (List.cons.inj h).1.symm hc'
  · exact absurd (List.cons.inj (List.cons.inj h).2).1.symm hc'
  · have hlength : (hexDigits 2 a.toNat).length = (hexDigits 2 b.toNat).length := by
      rw [length_hexDigits_byte, length_hexDigits_byte]
    obtain ⟨hdigits, rfl⟩ := List.append_inj (List.cons.inj (List.cons.inj h).2).2 hlength
    exact ⟨UInt8.toNat_inj.1 (Literal.hexDigits_inj hdigits), rfl⟩

/-- No escape starts with the quote that ends a string. -/
theorem escapeByte_append_ne_quote (b : UInt8) (s t : List Char) :
    escapeByte b ++ s ≠ '"' :: t := by
  intro h
  rcases escapeByte_eq b with ⟨c, hb, hc, -⟩ | ⟨c, hb, -⟩ | hb
  · rw [hb] at h
    exact hc (List.cons.inj h).1
  · rw [hb] at h
    exact absurd (List.cons.inj h).1 (by decide)
  · rw [hb] at h
    exact absurd (List.cons.inj h).1 (by decide)

/-- A string and what follows its closing quote can be told from the text. -/
theorem contents_append_inj {bytes bytes' : List UInt8} {s t : List Char}
    (h : bytes.flatMap escapeByte ++ '"' :: s = bytes'.flatMap escapeByte ++ '"' :: t) :
    bytes = bytes' ∧ s = t := by
  induction bytes generalizing bytes' with
  | nil =>
    match bytes' with
    | [] => exact ⟨rfl, (List.cons.inj h).2⟩
    | b :: bytes' =>
      rw [List.flatMap_cons, List.append_assoc] at h
      exact absurd h.symm (escapeByte_append_ne_quote b _ s)
  | cons a bytes ih =>
    rw [List.flatMap_cons, List.append_assoc] at h
    match bytes' with
    | [] => exact absurd h (escapeByte_append_ne_quote a _ t)
    | b :: bytes' =>
      rw [List.flatMap_cons, List.append_assoc] at h
      obtain ⟨rfl, hrest⟩ := escapeByte_append_inj h
      obtain ⟨rfl, rfl⟩ := ih hrest
      exact ⟨rfl, rfl⟩

/-- A quoted string ends where its quote is closed, so it can be told from what follows. -/
theorem write_append_inj {bytes bytes' : List UInt8} {s t : List Char}
    (h : (write bytes).toList ++ s = (write bytes').toList ++ t) : bytes = bytes' ∧ s = t := by
  rw [toList_write, toList_write, List.cons_append, List.cons_append, List.append_assoc,
    List.append_assoc] at h
  exact contents_append_inj (List.cons.inj h).2

/-- So can a row of strings. -/
theorem flatMap_write_inj {options options' : List (List UInt8)}
    (h : options.flatMap (fun o ↦ ' ' :: (write o).toList) =
      options'.flatMap fun o ↦ ' ' :: (write o).toList) : options = options' := by
  induction options generalizing options' with
  | nil =>
    match options' with
    | [] => rfl
    | o :: options' => exact absurd h (by simp)
  | cons o options ih =>
    match options' with
    | [] => exact absurd h (by simp)
    | o' :: options' =>
      rw [List.flatMap_cons, List.flatMap_cons] at h
      obtain ⟨rfl, hrest⟩ := write_append_inj (List.cons.inj h).2
      rw [ih hrest]

/-- Strings that are printed one after the other can be told apart. -/
theorem intercalate_write_inj {options options' : List (List UInt8)}
    (h : " ".intercalate (options.map write) = " ".intercalate (options'.map write)) :
    options = options' := by
  have hlist := congrArg String.toList h
  match options, options' with
  | [], [] => rfl
  | [], o :: others =>
    rw [Instruction.toList_intercalate_write, toList_write] at hlist
    exact absurd hlist (by simp [spaced])
  | o :: others, [] =>
    rw [Instruction.toList_intercalate_write, toList_write] at hlist
    exact absurd hlist (by simp [spaced])
  | o :: others, o' :: others' =>
    rw [Instruction.toList_intercalate_write, Instruction.toList_intercalate_write, spaced, spaced,
      List.flatMap_map, List.flatMap_map] at hlist
    obtain ⟨rfl, hrest⟩ := write_append_inj hlist
    rw [flatMap_write_inj hrest]

/-- Quoting leaves printable characters only. -/
theorem isPrintable_of_mem_write {bytes : List UInt8} {c : Char} (hc : c ∈ (write bytes).toList) :
    isPrintable c = true := by
  rw [toList_write, List.mem_cons, List.mem_append, List.mem_singleton, List.mem_flatMap] at hc
  rcases hc with rfl | ⟨b, -, hc⟩ | rfl
  · decide
  · rcases escapeByte_eq b with ⟨d, hb, -, -, hd, -⟩ | ⟨d, hb, -, hd, -⟩ | hb
    · rw [hb, List.mem_singleton] at hc
      exact hc ▸ hd
    · rw [hb] at hc
      rcases List.mem_pair.1 hc with rfl | rfl
      · decide
      · exact hd
    · rw [hb, List.mem_cons, List.mem_cons] at hc
      rcases hc with rfl | rfl | hc
      · decide
      · decide
      · have hdigit := isAlphanum_of_mem_hexDigits hc
        exact isPrintable_of_isTokenChar (isTokenChar_of_isAlphanum hdigit)
  · decide

end Text.Quoted

/-! ### Records -/

theorem Text.notMem_space_of_isToken {s : List Char} (h : IsToken s) : ' ' ∉ s := fun hmem ↦
  absurd (h.2 ' ' hmem) (by decide)

/-- The first of several texts ends at the first space. -/
theorem Text.spaced_cons_inj {s t u v : List Char} {us vs : List (List Char)} (hs : IsToken s)
    (ht : IsToken t) (h : spaced s (u :: us) = spaced t (v :: vs)) :
    s = t ∧ spaced u us = spaced v vs := by
  rw [spaced_cons, spaced_cons] at h
  exact append_cons_inj (notMem_space_of_isToken hs) (notMem_space_of_isToken ht) h

theorem Opcode.length_mnemonic (op : Opcode) : op.mnemonic.toList.length = 4 := by
  cases op <;> rfl

/-- A mnemonic names one instruction. -/
theorem Opcode.mnemonic_inj {op op' : Opcode} (h : op.mnemonic = op'.mnemonic) : op = op' := by
  have hlookup := op.ofMnemonic?_mnemonic
  rw [h, ofMnemonic?_mnemonic] at hlookup
  exact (Option.some.inj hlookup).symm

/-- The printed source of an instruction tells its byte. -/
theorem Instruction.sourceText_inj {op : Opcode} {b c : UInt8}
    (h : sourceText op b = sourceText op c) : b = c := by
  unfold sourceText at h
  split at h
  · exact Literal.hexByte_inj h
  · exact RegisterRef.registerText_inj h

theorem Literal.toString_toNat_inj {b c : UInt8} (h : toString b.toNat = toString c.toNat) :
    b = c := by
  have hparse := parse_toString b.toNat
  rw [h, parse_toString, UInt8.ofNat_toNat, UInt8.ofNat_toNat] at hparse
  exact (Except.ok.inj hparse).symm

theorem isToken_of_mem_tileWords (id : UInt8) (rows : TileRows) :
    ∀ s ∈ (toString id.toNat).toList :: (rows.toList.map hexByte).map String.toList, IsToken s := by
  intro s hs
  rcases List.mem_cons.1 hs with rfl | hs
  · exact isToken_toString id.toNat
  · rw [List.map_map] at hs
    obtain ⟨b, -, rfl⟩ := List.mem_map.1 hs
    exact isToken_hexByte b

/-- Operands of one shape that are printed alike are the same. -/
theorem Operands.words_inj {op : Opcode} {shape : Shape} {operands operands' : Operands}
    (h : Readable shape operands) (h' : Readable shape operands')
    (hwords : ((operands.words op).map String.toList).flatMap (' ' :: ·) =
      ((operands'.words op).map String.toList).flatMap (' ' :: ·)) : operands = operands' := by
  match shape, operands, operands', h, h' with
  | _, _, _, .bare, .bare => rfl
  | _, _, _, .register r, .register r' =>
    have h : spaced (registerText r).toList [] = spaced (registerText r').toList [] :=
      (List.cons.inj hwords).2
    rw [spaced_nil, spaced_nil] at h
    rw [RegisterRef.registerText_inj (String.toList_inj.1 h)]
  | _, _, _, .address a, .address a' =>
    have h : spaced (hex 4 a.toNat).toList [] = spaced (hex 4 a'.toNat).toList [] :=
      (List.cons.inj hwords).2
    rw [spaced_nil, spaced_nil, Literal.toList_hex, Literal.toList_hex, List.cons.injEq,
      List.cons.injEq] at h
    rw [UInt16.toNat_inj.1 (Literal.hexDigits_inj h.2.2)]
  | _, _, _, .pair source dest, .pair source' dest' =>
    have h : spaced (Instruction.sourceText op source).toList [(registerText dest).toList] =
        spaced (Instruction.sourceText op source').toList [(registerText dest').toList] :=
      (List.cons.inj hwords).2
    obtain ⟨hsource, hdest⟩ := spaced_cons_inj (Instruction.isToken_sourceText op source)
      (Instruction.isToken_sourceText op source') h
    rw [spaced_nil, spaced_nil] at hdest
    rw [Instruction.sourceText_inj (String.toList_inj.1 hsource),
      RegisterRef.registerText_inj (String.toList_inj.1 hdest)]
  | _, _, _, .tile id rows, .tile id' rows' =>
    have h : spaced (toString id.toNat).toList ((rows.toList.map hexByte).map String.toList) =
        spaced (toString id'.toNat).toList ((rows'.toList.map hexByte).map String.toList) :=
      (List.cons.inj hwords).2
    have htokens := congrArg Text.words h
    rw [words_spaced (isToken_of_mem_tileWords id rows),
      words_spaced (isToken_of_mem_tileWords id' rows'), List.cons.injEq, List.map_map,
      List.map_map] at htokens
    rw [Literal.toString_toNat_inj (String.toList_inj.1 htokens.1), Vector.toList_inj.1
      (List.map_injective_iff.2 (fun _ _ heq ↦ Literal.hexByte_inj (String.toList_inj.1 heq))
        htokens.2)]
  | _, _, _, @Readable.text r chars _, @Readable.text r' chars' _ =>
    have h : spaced (registerText r).toList [(Quoted.write chars).toList] =
        spaced (registerText r').toList [(Quoted.write chars').toList] := (List.cons.inj hwords).2
    obtain ⟨hregister, hwrite⟩ :=
      spaced_cons_inj (isToken_registerText r) (isToken_registerText r') h
    rw [spaced_nil, spaced_nil] at hwrite
    have hwrite := Quoted.write_append_inj (congrArg (· ++ []) hwrite)
    rw [RegisterRef.registerText_inj (String.toList_inj.1 hregister), hwrite.1]
  | _, _, _, @Readable.selector r options _, @Readable.selector r' options' _ =>
    have h : spaced (registerText r).toList [(" ".intercalate (options.map Quoted.write)).toList] =
        spaced (registerText r').toList [(" ".intercalate (options'.map Quoted.write)).toList] :=
      (List.cons.inj hwords).2
    obtain ⟨hregister, hwrite⟩ :=
      spaced_cons_inj (isToken_registerText r) (isToken_registerText r') h
    rw [spaced_nil, spaced_nil] at hwrite
    rw [RegisterRef.registerText_inj (String.toList_inj.1 hregister),
      Quoted.intercalate_write_inj (String.toList_inj.1 hwrite)]

/-- **No two records are printed alike.** -/
theorem Decoded.render_inj {d d' : Decoded} (hd : d.Readable) (hd' : d'.Readable)
    (h : d.render = d'.render) : d = d' := by
  obtain ⟨op, operands⟩ := d
  obtain ⟨op', operands'⟩ := d'
  have hlist := congrArg String.toList h
  rw [toList_render, toList_render, spaced, spaced] at hlist
  have hlength : op.mnemonic.toList.length = op'.mnemonic.toList.length := by
    rw [op.length_mnemonic, op'.length_mnemonic]
  obtain ⟨hmnemonic, hwords⟩ := List.append_inj hlist hlength
  obtain rfl : op = op' := Opcode.mnemonic_inj (String.toList_inj.1 hmnemonic)
  exact congrArg (Decoded.mk op) (Operands.words_inj hd hd' hwords)

/-! ### Printable texts -/

theorem Operands.isPrintable_of_mem_words {op : Opcode} {operands : Operands} {w : String}
    (hw : w ∈ operands.words op) {c : Char} (hc : c ∈ w.toList) : Quoted.isPrintable c = true := by
  rcases isToken_or_eq_of_mem_words hw with htoken | ⟨rfl, -⟩
  · exact Quoted.isPrintable_of_isTokenChar (htoken.2 c hc)
  · rcases Instruction.mem_intercalate_write hc with rfl | ⟨s, -, hc⟩
    · decide
    · exact Quoted.isPrintable_of_mem_write hc

/-- A printed instruction stays on its line. -/
theorem Decoded.isPrintable_of_mem_render {d : Decoded} {c : Char} (hc : c ∈ d.render.toList) :
    Quoted.isPrintable c = true := by
  rw [toList_render] at hc
  rcases mem_spaced hc with rfl | ⟨s, hs, hc⟩
  · decide
  · rcases List.mem_cons.1 hs with rfl | hs
    · exact Quoted.isPrintable_of_isTokenChar (d.op.isToken_mnemonic.2 c hc)
    · obtain ⟨w, hw, rfl⟩ := List.mem_map.1 hs
      exact Operands.isPrintable_of_mem_words hw hc

end TileAsm
