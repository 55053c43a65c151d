import TileAsm.Proofs.Delimiting

/-!
# How much of a selector is read back

The strings of a selector stand one behind the other, and an empty string ends them. The parser
takes a string of any length, so an option of a source can be the string that ends the options. What
is decoded then are the options in front of it (`decode_encode_selector`), and the bytes behind it
are left to be decoded as the next instruction. A selector is read back in full exactly if none of
its options is empty, and exactly then it takes the bytes that its size says.

None of this is about source lines. `Instruction.parse` also takes texts with a semicolon in a
string, so the options are described here by their terminators alone (`isTerminated_of_parse`).
-/

namespace TileAsm

open Text

/-! ### Options that the parser accepts -/

/-- A printable string is free of terminators but for its last byte. -/
theorem StringLiteral.isTerminated_of_parse {text rest : List Char} {bytes : List UInt8}
    (h : parse text = .ok (bytes, rest)) : IsTerminated bytes := by
  obtain ⟨-, contents, -, -, hprint, rfl⟩ := parse_eq_ok_iff.1 h
  refine ⟨_, rfl, fun hmem ↦ ?_⟩
  obtain ⟨c, hc, hzero⟩ := List.mem_map.1 hmem
  obtain ⟨hlow, hhigh⟩ := Quoted.isPrintable_iff.1 (List.all_eq_true.1 hprint c hc)
  have hbyte := congrArg UInt8.toNat hzero
  rw [UInt8.toNat_ofNat', UInt8.toNat_zero] at hbyte
  omega

namespace Instruction

/-- Every option of a selector ends at its first terminator. -/
theorem isTerminated_of_parse {text : List Char} {r : RegisterRef} {options : List (List UInt8)}
    (h : parse text = .ok (.selector r options)) : ∀ o ∈ options, IsTerminated o := by
  rw [parse] at h
  dsimp only at h
  split at h
  · exact absurd h (by simp)
  · rename_i op hop
    have hshape : op.shape = .selector := (Option.some.inj (shape?_of_parseOperands h)).symm
    rw [parseOperands, hshape] at h
    obtain ⟨⟨position, rest⟩, -, h⟩ := bind_eq_ok_iff.1 h
    obtain ⟨options', hoptions, h⟩ := bind_eq_ok_iff.1 h
    obtain ⟨-, -, h⟩ := bind_eq_ok_iff.1 h
    obtain ⟨rfl, rfl⟩ := Instruction.selector.inj (Except.ok.inj h)
    exact (StringLiteral.forall_mem_of_parseMany (Q := fun _ ↦ True)
      (fun _ hparse ↦ ⟨StringLiteral.isTerminated_of_parse hparse, trivial⟩) trivial hoptions).2

end Instruction

/-! ### Options that are decoded -/

/-- The strings up to the first empty one, followed by an empty one, stand in front of all strings
followed by an empty one. -/
theorem takeWhile_flatMap_isPrefix (options : List (List UInt8)) :
    (options.takeWhile (!·.isEmpty)).flatMap (· ++ [0]) ++ [0] <+:
      options.flatMap (· ++ [0]) ++ [0] := by
  induction options with
  | nil => exact List.prefix_rfl
  | cons o options ih =>
    match o with
    | [] => exact ⟨options.flatMap (· ++ [0]) ++ [0], by simp⟩
    | b :: o =>
      rw [List.takeWhile_cons_of_pos (by rfl), List.flatMap_cons, List.flatMap_cons,
        List.append_assoc (b :: o ++ [0]), List.append_assoc (b :: o ++ [0])]
      exact (List.prefix_append_right_inj _).2 ih

/-- A selector decodes to its options up to the first empty one, whatever bytes follow. -/
theorem Decoded.ofBytes?_selector_append {options : List (List UInt8)} (h : ∀ o ∈ options, 0 ∉ o)
    (b : UInt8) (rest : List UInt8) :
    ofBytes? (Opcode.dsel.code :: b :: (options.flatMap (· ++ [0]) ++ [0]) ++ rest) =
      some { op := .dsel, operands := .selector b (options.takeWhile (!·.isEmpty)) } := by
  refine ofBytes?_eq_some_iff.2 ⟨.selector b fun o ho ↦ ⟨?_, ?_⟩, ?_⟩
  · simpa using List.mem_takeWhile_imp ho
  · exact h o (List.IsPrefix.subset (List.takeWhile_prefix _) ho)
  · have hpre := (takeWhile_flatMap_isPrefix options).trans (List.prefix_append _ rest)
    rw [List.cons_append, List.cons_append]
    exact (List.prefix_cons_inj _).2 ((List.prefix_cons_inj _).2 hpre)

/-- A part of the strings that is as long as all of them is all of them. -/
theorem length_flatMap_takeWhile_eq_iff (options : List (List UInt8)) :
    ((options.takeWhile (!·.isEmpty)).flatMap (· ++ [0])).length =
        (options.flatMap (· ++ [0])).length ↔
      options.takeWhile (!·.isEmpty) = options := by
  refine ⟨fun h ↦ ?_, fun h ↦ by rw [h]⟩
  have hsplit := List.takeWhile_append_dropWhile (p := (!·.isEmpty)) (l := options)
  match hdrop : options.dropWhile (!·.isEmpty) with
  | [] => rwa [hdrop, List.append_nil] at hsplit
  | o :: others =>
    -- what is left out has a terminator at least
    rw [hdrop] at hsplit
    have hlength := congrArg (fun l : List (List UInt8) ↦ (l.flatMap (· ++ [0])).length) hsplit
    simp only [List.flatMap_append, List.flatMap_cons, List.length_append, List.length_singleton]
      at hlength
    omega

theorem takeWhile_map_dropLast_eq_iff {options : List (List UInt8)}
    (h : ∀ o ∈ options, IsTerminated o) :
    (options.map List.dropLast).takeWhile (!·.isEmpty) = options.map List.dropLast ↔
      [0] ∉ options := by
  rw [List.takeWhile_eq_self_iff]
  constructor
  · intro hall hmem
    simpa using hall _ (List.mem_map_of_mem hmem)
  · intro hempty chars hchars
    obtain ⟨o, ho, rfl⟩ := List.mem_map.1 hchars
    have hne : o.dropLast ≠ [] := fun hnil ↦
      hempty ((h o ho).dropLast_eq_nil_iff.1 hnil ▸ ho)
    simpa using hne

/-- **How much of a selector is read back.** Whatever its register is bound to and whatever follows
it, an accepted selector decodes as a selector of that register with the options in front of the
first empty one. These are all options exactly if none is empty, and exactly then the decoded
selector has the size of the encoded one. -/
theorem decode_encode_selector {text : List Char} {r : RegisterRef} {options : List (List UInt8)}
    (h : Instruction.parse text = .ok (.selector r options)) (b : UInt8) (rest : List UInt8) :
    let i := Instruction.selector { r with value := some b } options
    ∃ bytes d, i.encode = .ok bytes ∧ Decoded.ofBytes? (bytes ++ rest) = some d ∧ d.op = .dsel ∧
      d.operands = .selector b ((options.map List.dropLast).takeWhile (!·.isEmpty)) ∧
      (d.operands = .selector b (options.map List.dropLast) ↔ [0] ∉ options) ∧
      (d.width = i.size ↔ [0] ∉ options) := by
  intro i
  have hterminated := Instruction.isTerminated_of_parse h
  have hflatten : (options.map List.dropLast).flatMap (· ++ [0]) = options.flatten := by
    rw [List.flatMap_def, IsTerminated.map_dropLast_append hterminated]
  have hzero : ∀ o ∈ options.map List.dropLast, 0 ∉ o := by
    intro _ hmem
    obtain ⟨o, ho, rfl⟩ := List.mem_map.1 hmem
    exact (hterminated o ho).zero_notMem_dropLast
  have hdecode := Decoded.ofBytes?_selector_append hzero b rest
  rw [hflatten] at hdecode
  have hall := takeWhile_map_dropLast_eq_iff hterminated
  refine ⟨_, _, rfl, hdecode, rfl, rfl, ?_, ?_⟩
  · rw [Operands.selector.injEq, and_iff_right rfl, hall]
  · -- both widths count the same two bytes in front of the options and the one behind them
    have hsize : i.size = 2 + ((options.map List.dropLast).flatMap (· ++ [0])).length + 1 := by
      rw [hflatten]
      rfl
    rw [← hall, ← length_flatMap_takeWhile_eq_iff, hsize, ← Decoded.length_encode]
    simp only [Decoded.encode, Operands.encode, List.length_cons, List.length_append,
      List.length_nil]
    omega

/-- A semicolon and an indirect register do not keep options from being read back. -/
theorem decode_encode_selector_of_semicolon :
    let text := "DSEL *rx \"a;\"\"b\"".toList
    let i := Instruction.selector ⟨"rx", .indirect, some 0x85⟩ [[0x61, 0x3B, 0], [0x62, 0]]
    Instruction.parse text =
        .ok (.selector ⟨"rx", .indirect, none⟩ [[0x61, 0x3B, 0], [0x62, 0]]) ∧
      ∃ bytes d, i.encode = .ok bytes ∧ Decoded.ofBytes? (bytes ++ [0x10, 0x00]) = some d ∧
        d.operands = .selector 0x85 [[0x61, 0x3B], [0x62]] ∧ d.width = i.size := by
  intro text i
  have h : Instruction.parse text =
      .ok (.selector ⟨"rx", .indirect, none⟩ [[0x61, 0x3B, 0], [0x62, 0]]) := by decide +kernel
  obtain ⟨bytes, d, hbytes, hd, -, -, hoptions, hwidth⟩ :=
    decode_encode_selector h 0x85 [0x10, 0x00]
  exact ⟨h, bytes, d, hbytes, hd, hoptions.2 (by decide), hwidth.2 (by decide)⟩

/-- With an empty first option, six bytes are encoded and three are decoded, without any option. -/
theorem decode_encode_selector_of_empty_option :
    let text := "DSEL r0 \"\" \"a\"".toList
    let i := Instruction.selector ⟨"r0", .direct, some 0⟩ [[0], [0x61, 0]]
    let bytes := [0x19, 0x00, 0x00, 0x61, 0x00, 0x00]
    Instruction.parse text = .ok (.selector ⟨"r0", .direct, none⟩ [[0], [0x61, 0]]) ∧
      i.encode = .ok bytes ∧ i.size = 6 ∧
      ∃ d, Decoded.ofBytes? bytes = some d ∧ d.width = 3 ∧ d.operands = .selector 0 [] := by
  refine ⟨by decide +kernel, rfl, rfl, { op := .dsel, operands := .selector 0 [] }, ?_, rfl, rfl⟩
  exact Decoded.ofBytes?_eq_some_iff.2 ⟨.selector 0 (by simp), [0x61, 0x00, 0x00], rfl⟩

end TileAsm
