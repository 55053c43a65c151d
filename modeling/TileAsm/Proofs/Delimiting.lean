import TileAsm.Proofs.Decoding

/-!
# Where a decoded instruction ends

`Proofs/Decoding` reads back what was encoded. This is the other direction, for bytes that nobody
has encoded: whatever is decoded is readable, and the bytes that it was decoded from start with its
encoding. Together they say exactly when a row of bytes decodes (`Decoded.ofBytes?_eq_some_iff`):

```
ofBytes? code = some d  ↔  d is readable, and d.encode is a prefix of code
```

The right-hand side mentions the bytes behind the instruction only to ignore them, so all questions
about more or fewer bytes are questions about prefixes. Bytes that follow never change what was
decoded (`ofBytes?_mono`). Read the other way round: a row of bytes that does not decode does
not begin to when its end is cut off.

So the format needs no marks between instructions (`Decoded.self_delimiting`). The bytes of an
instruction decode as that instruction whatever follows them, and no shorter row of them decodes at
all: the beginning of a selector is never taken for a selector with fewer options.
-/

namespace TileAsm

namespace Operands

/-! ### Strings -/

/-- A string that was cut off ends at the first zero. -/
theorem eq_append_of_cutString? {code chars rest : List UInt8}
    (h : cutString? code = some (chars, rest)) : 0 ∉ chars ∧ code = chars ++ 0 :: rest := by
  unfold cutString? at h
  split at h
  · exact absurd h (by simp)
  · rename_i b tail htail
    obtain ⟨rfl, rfl⟩ := Prod.mk.inj (Option.some.inj h)
    have hzero : b = 0 := by
      have hhead := List.head?_dropWhile_not (· != 0) code
      rw [htail] at hhead
      simpa using hhead
    refine ⟨fun hmem ↦ ?_, ?_⟩
    · exact absurd (List.mem_takeWhile_imp hmem) (by simp)
    · rw [hzero] at htail
      rw [← htail, List.takeWhile_append_dropWhile]

/-- Strings that were read are not empty, and an empty one ends them. -/
theorem exists_eq_append_of_strings? {code : List UInt8} {options : List (List UInt8)}
    (h : strings? code = some options) :
    (∀ o ∈ options, o ≠ [] ∧ 0 ∉ o) ∧
      ∃ rest, code = options.flatMap (· ++ [0]) ++ 0 :: rest := by
  induction hlength : code.length using Nat.strongRecOn generalizing code options with
  | ind n ih =>
    rw [strings?_eq_bind] at h
    obtain ⟨⟨chars, rest⟩, hcut, hrest⟩ := Option.bind_eq_some_iff.1 h
    have hlt := length_cutString?_lt hcut
    obtain ⟨hzero, rfl⟩ := eq_append_of_cutString? hcut
    dsimp only at hrest
    split at hrest
    · -- an empty string is the end
      rename_i hempty
      obtain rfl := List.isEmpty_iff.1 hempty
      obtain rfl := Option.some.inj hrest
      exact ⟨by simp, rest, rfl⟩
    · rename_i hne
      obtain ⟨others, hothers, rfl⟩ := Option.map_eq_some_iff.1 hrest
      obtain ⟨hall, tail, rfl⟩ := ih _ (hlength ▸ hlt) hothers rfl
      refine ⟨List.forall_mem_cons.2 ⟨⟨fun hnil ↦ hne (by simp [hnil]), hzero⟩, hall⟩, tail, ?_⟩
      simp

/-! ### Operands -/

/-- Operands that were decoded are readable, and the bytes start with their encoding. -/
theorem readable_and_encode_prefix_of_ofBytes? {shape : Shape} {code : List UInt8}
    {operands : Operands} (h : ofBytes? shape code = some operands) :
    Readable shape operands ∧ operands.encode <+: code := by
  unfold ofBytes? at h
  split at h
  · obtain rfl := Option.some.inj h
    exact ⟨.bare, List.nil_prefix⟩
  · obtain rfl := Option.some.inj h
    exact ⟨.register _, List.prefix_append _ _⟩
  · obtain rfl := Option.some.inj h
    refine ⟨.address _, ?_⟩
    rw [encode, Address.toBytes_ofBytes]
    exact List.prefix_append _ _
  · obtain rfl := Option.some.inj h
    exact ⟨.pair _ _, List.prefix_append _ _⟩
  · obtain rfl := Option.some.inj h
    exact ⟨.tile _ _, List.prefix_append _ _⟩
  · rename_i r rest
    obtain ⟨⟨chars, tail⟩, hcut, rfl⟩ := Option.map_eq_some_iff.1 h
    obtain ⟨hzero, rfl⟩ := eq_append_of_cutString? hcut
    exact ⟨.text r hzero, tail, by simp [encode]⟩
  · rename_i r rest
    obtain ⟨options, hoptions, rfl⟩ := Option.map_eq_some_iff.1 h
    obtain ⟨hall, tail, rfl⟩ := exists_eq_append_of_strings? hoptions
    exact ⟨.selector r hall, tail, by simp [encode]⟩
  · exact absurd h (by simp)

end Operands

namespace Decoded

/-! ### Instructions -/

/-- **What decodes.** A row of bytes decodes as an instruction exactly if that can stand in an image
and the bytes start with its encoding. -/
theorem ofBytes?_eq_some_iff {code : List UInt8} {d : Decoded} :
    ofBytes? code = some d ↔ d.Readable ∧ d.encode <+: code := by
  constructor
  · intro h
    match code with
    | [] => exact absurd h (by simp [ofBytes?])
    | b :: rest =>
      obtain ⟨op, hop, h⟩ := Option.bind_eq_some_iff.1 h
      obtain ⟨operands, hoperands, h⟩ := Option.bind_eq_some_iff.1 h
      obtain rfl := Option.some.inj h
      obtain ⟨hreadable, hpre⟩ := Operands.readable_and_encode_prefix_of_ofBytes? hoperands
      refine ⟨hreadable, ?_⟩
      rw [encode, ← Opcode.code_of_ofByte? hop]
      exact (List.prefix_cons_inj _).2 hpre
  · rintro ⟨hreadable, rest, rfl⟩
    exact ofBytes?_encode_append hreadable rest

/-- Bytes that follow do not matter. -/
theorem ofBytes?_mono {code more : List UInt8} {d : Decoded} (hpre : code <+: more)
    (h : ofBytes? code = some d) : ofBytes? more = some d := by
  obtain ⟨hreadable, hencode⟩ := ofBytes?_eq_some_iff.1 h
  exact ofBytes?_eq_some_iff.2 ⟨hreadable, hencode.trans hpre⟩

/-- The bytes that an instruction is decoded from are the first ones, as many as its width. -/
theorem take_width_of_ofBytes? {code : List UInt8} {d : Decoded} (h : ofBytes? code = some d) :
    d.width ≤ code.length ∧ code.take d.width = d.encode := by
  obtain ⟨-, hpre⟩ := ofBytes?_eq_some_iff.1 h
  rw [← d.length_encode]
  exact ⟨hpre.length_le, (List.prefix_iff_eq_take.1 hpre).symm⟩

/-- An instruction that is cut off is not decoded, neither as itself nor as another one. -/
theorem ofBytes?_take_eq_none {code : List UInt8} {d : Decoded} (h : ofBytes? code = some d)
    {k : Nat} (hk : k < d.width) : ofBytes? (code.take k) = none := by
  rcases hcut : ofBytes? (code.take k) with - | d'
  · rfl
  · -- what is left would decode in front of the bytes that were cut off as well, and so be `d`
    have hwhole := ofBytes?_mono (List.take_prefix k code) hcut
    obtain rfl : d = d' := Option.some.inj (h.symm.trans hwhole)
    have hle := (take_width_of_ofBytes? hcut).1
    rw [List.length_take] at hle
    omega

/-- **The format is self-delimiting.** The bytes of an instruction decode as that instruction,
whatever follows them, and no shorter row of them decodes. -/
theorem self_delimiting {code : List UInt8} {d : Decoded} (h : ofBytes? code = some d) :
    d.width ≤ code.length ∧
      (∀ rest, ofBytes? (code.take d.width ++ rest) = some d) ∧
      ∀ k < d.width, ofBytes? (code.take k) = none := by
  obtain ⟨hle, htake⟩ := take_width_of_ofBytes? h
  refine ⟨hle, fun rest ↦ ?_, fun k hk ↦ ofBytes?_take_eq_none h hk⟩
  rw [htake]
  exact ofBytes?_encode_append (ofBytes?_eq_some_iff.1 h).1 rest

/-- A selector of two options with a stray byte behind it. Cut off before its last terminator it is
no selector, and neither is it between the two options. -/
theorem self_delimiting_of_selector :
    let code : List UInt8 := [0x19, 0x05, 0x61, 0x00, 0x62, 0x63, 0x00, 0x00, 0xff]
    let d : Decoded := { op := .dsel, operands := .selector 0x05 [[0x61], [0x62, 0x63]] }
    ofBytes? code = some d ∧ d.width = 8 ∧
      ofBytes? [0x19, 0x05, 0x61, 0x00, 0x62, 0x63, 0x00, 0x00, 0x00, 0x61] = some d ∧
      ofBytes? [0x19, 0x05, 0x61, 0x00, 0x62, 0x63, 0x00] = none ∧
      ofBytes? [0x19, 0x05, 0x61, 0x00] = none ∧ ofBytes? [0x19] = none := by
  intro code d
  have h : ofBytes? code = some d := by decide +kernel
  obtain ⟨-, happend, hcut⟩ := self_delimiting h
  exact ⟨h, rfl, happend [0x00, 0x61], hcut 7 (by decide), hcut 4 (by decide), hcut 1 (by decide)⟩

end Decoded

end TileAsm
