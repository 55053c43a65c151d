import Mathlib.Data.List.TakeWhile
import TileAsm.Compilation
import TileAsm.Proofs.Basic

/-!
# What the parser lets through

The type of instructions ties no opcode to its shape and no string to its terminator. The parser
does, and everything that reads an image back rests on it. `Instruction.WellFormed` says what is
guaranteed, one constructor for each kind of instruction, and `wellFormed_of_mem_compile` that it
holds of every instruction of a compiled source; `unbound_of_mem_compile` adds that no operand has
a value yet.

The two are kept apart on purpose. Binding ends the second and keeps the first
(`WellFormed.mapRegisters`, `WellFormed.mapTarget`), so the well-formedness of a source is that of
the resolved program.

A semicolon starts a comment wherever it stands, so no string of a source holds one. That is a fact
about lines and not about literals: the lemmas on readers carry the absence of semicolons along as
a hypothesis on the text, and a line of code discharges it.
-/

namespace TileAsm

open Text

/-! ### Definitions -/

/-- The bytes that a string of a source can hold: printable ASCII without the semicolon. -/
def isStringByte (b : UInt8) : Bool := 0x20 ≤ b && b ≤ 0x7E && b != 0x3B

/-- A string as it stands in the image: its bytes and a terminator. -/
def IsString (bytes : List UInt8) : Prop :=
  ∃ chars : List UInt8, bytes = chars ++ [0] ∧ chars.all isStringByte = true

/-- A register operand with a proper name. -/
def RegisterRef.WellFormed (r : RegisterRef) : Prop := Name.isRegister r.name.toList = true

/-- What may stand as the source of an instruction: an immediate value for `STOR`, a direct or
indirect register for every other. -/
def Source.WellFormed (op : Opcode) : Source → Prop
  | .literal _ => op = .stor
  | .register r => r.WellFormed ∧ (r.mode = .addressOf ↔ op = .stor)

namespace Instruction

/-- An instruction that agrees with the instruction table. -/
inductive WellFormed : Instruction → Prop
  /-- A label has a proper name. -/
  | label {name : String} {doc : List String} (hname : Name.isLabel name.toList = true) :
    WellFormed (.label name doc)
  /-- An instruction without operands takes none. -/
  | bare {op : Opcode} (hop : op.shape = .bare) : WellFormed (.bare op)
  /-- Arithmetic works on a register itself. -/
  | register {op : Opcode} {r : RegisterRef} (hop : op.shape = .register) (hr : r.WellFormed)
    (hmode : r.mode = .direct) : WellFormed (.register op r)
  /-- A jump has a proper target. -/
  | address {op : Opcode} {t : LabelRef} (hop : op.shape = .address)
    (hname : Name.isLabel t.label.toList = true) : WellFormed (.address op t)
  /-- A destination is a register, directly or indirectly. -/
  | pair {op : Opcode} {source : Source} {dest : RegisterRef} (hop : op.shape = .pair)
    (hsource : source.WellFormed op) (hdest : dest.WellFormed) (hmode : dest.mode ≠ .addressOf) :
    WellFormed (.pair op source dest)
  /-- There are 64 tiles. -/
  | tile {id : UInt8} {rows : TileRows} (hid : id ≤ 63) : WellFormed (.tile id rows)
  /-- A text is one string. -/
  | text {r : RegisterRef} {bytes : List UInt8} (hr : r.WellFormed) (hmode : r.mode ≠ .addressOf)
    (hbytes : IsString bytes) (hlength : bytes.length ≤ maxPayload) : WellFormed (.text r bytes)
  /-- A choice is between one or more strings. -/
  | selector {r : RegisterRef} {options : List (List UInt8)} (hr : r.WellFormed)
    (hmode : r.mode ≠ .addressOf) (hne : options ≠ []) (hoptions : ∀ o ∈ options, IsString o)
    (hlength : options.flatten.length + 1 ≤ maxPayload) : WellFormed (.selector r options)

/-- The shape of the operands of an instruction. A label has none. -/
def shape? : Instruction → Option Shape
  | label _ _ => none
  | bare _ => some .bare
  | register _ _ => some .register
  | address _ _ => some .address
  | pair _ _ _ => some .pair
  | tile _ _ => some .tile
  | text _ _ => some .text
  | selector _ _ => some .selector

/-- An instruction none of whose operands has a value. -/
def Unbound (i : Instruction) : Prop :=
  (∀ r ∈ i.registers, r.value = none) ∧ ∀ t ∈ i.target?, t.value = none

variable {i : Instruction}

/-! ### Names of operands -/

/-- The registers of an instruction that was read have proper names. -/
theorem WellFormed.registers (h : i.WellFormed) {r : RegisterRef} (hr : r ∈ i.registers) :
    r.WellFormed := by
  cases h with
  | register hop hwf hm => exact List.mem_singleton.1 hr ▸ hwf
  | @pair op source dest hop hsource hdest hm =>
    rcases List.mem_append.1 hr with hr | hr
    · cases source with
      | literal v => cases hr
      | register s => exact List.mem_singleton.1 hr ▸ hsource.1
    · exact List.mem_singleton.1 hr ▸ hdest
  | text hwf hm hbytes hlen => exact List.mem_singleton.1 hr ▸ hwf
  | selector hwf hm hne hoptions hlen => exact List.mem_singleton.1 hr ▸ hwf
  | _ => cases hr

/-- An instruction that was read jumps to labels only. -/
theorem WellFormed.targets (h : i.WellFormed) {name : String} (hname : i.targets name = true) :
    Name.isLabel name.toList = true := by
  cases h with
  | @address op t hop hwf =>
    have hlabel : t.label = name := by simpa [Instruction.targets, target?] using hname
    exact hlabel ▸ hwf
  | _ => cases hname

/-! ### Binding keeps well-formedness -/

/-- Replacing registers by others that may stand in their places. -/
theorem WellFormed.mapRegisters (h : i.WellFormed) {f : RegisterRef → RegisterRef}
    (hwf : ∀ r : RegisterRef, r.WellFormed → (f r).WellFormed) (hmode : ∀ r, (f r).mode = r.mode) :
    (i.mapRegisters f).WellFormed := by
  cases h with
  | label hn => exact .label hn
  | bare hop => exact .bare hop
  | register hop hr hm => exact .register hop (hwf _ hr) (by rw [hmode, hm])
  | address hop hn => exact .address hop hn
  | @pair op source dest hop hsource hdest hm =>
    refine .pair hop ?_ (hwf _ hdest) (by rwa [hmode])
    cases source with
    | literal v => exact hsource
    | register r => exact ⟨hwf r hsource.1, by rw [hmode]; exact hsource.2⟩
  | tile hid => exact .tile hid
  | text hr hm hbytes hlen => exact .text (hwf _ hr) (by rwa [hmode]) hbytes hlen
  | selector hr hm hne hoptions hlen =>
    exact .selector (hwf _ hr) (by rwa [hmode]) hne hoptions hlen

theorem WellFormed.mapTarget (h : i.WellFormed) {f : LabelRef → LabelRef}
    (hname : ∀ t, (f t).label = t.label) : (i.mapTarget f).WellFormed := by
  cases h with
  | address hop hn => exact .address hop (by rwa [hname])
  | label hn => exact .label hn
  | bare hop => exact .bare hop
  | register hop hr hm => exact .register hop hr hm
  | pair hop hsource hdest hm => exact .pair hop hsource hdest hm
  | tile hid => exact .tile hid
  | text hr hm hbytes hlen => exact .text hr hm hbytes hlen
  | selector hr hm hne hoptions hlen => exact .selector hr hm hne hoptions hlen

end Instruction

/-! ### Trimmed texts -/

namespace Text

theorem trimStart_suffix (s : List Char) : trimStart s <:+ s := List.dropWhile_suffix _

theorem trimEnd_sublist (s : List Char) : (trimEnd s).Sublist s := by
  have h := (trimStart_suffix s.reverse).sublist
  rwa [← List.reverse_sublist, List.reverse_reverse] at h

/-- Trimming adds no character. -/
theorem mem_of_mem_trim {s : List Char} {c : Char} (h : c ∈ trim s) : c ∈ s :=
  (trimStart_suffix s).subset ((trimEnd_sublist _).subset h)

/-- What follows a token is made of characters of the text. -/
theorem mem_of_mem_cutToken {s : List Char} {c : Char} (h : c ∈ (cutToken s).2) : c ∈ s :=
  (List.dropWhile_suffix _).subset (mem_of_mem_trim h)

end Text

/-! ### Strings -/

namespace Text.Quoted

theorem isPrintable_iff {c : Char} : isPrintable c = true ↔ 0x20 ≤ c.toNat ∧ c.toNat < 0x7F := by
  rw [isPrintable, Bool.and_eq_true, decide_eq_true_eq, decide_eq_true_eq, Char.le_def,
    Char.le_def, UInt32.le_iff_toNat_le, UInt32.le_iff_toNat_le]
  show 32 ≤ c.toNat ∧ c.toNat ≤ 126 ↔ _
  omega

/-- An escape adds at most a space or a backslash, and no semicolon. -/
theorem mem_of_mem_unescape {c d : Char} (h : d ∈ unescape c) : d = c ∨ d = ' ' ∨ d = '\\' := by
  rw [unescape] at h
  split at h
  · exact .inl (List.mem_singleton.1 h)
  · split at h
    · exact .inr (.inl (List.mem_singleton.1 h))
    · rcases List.mem_cons.1 h with h | h
      · exact .inr (.inr h)
      · exact .inl (List.mem_singleton.1 h)

/-- A literal is read from front to back. -/
theorem suffix_of_body? {s contents after : List Char} (h : body? s = some (contents, after)) :
    after <:+ s := by
  fun_induction body? s generalizing contents after with
  | case1 => cases h
  | case2 => cases h; exact List.suffix_cons _ _
  | case3 => cases h
  | case4 c rest ih =>
    obtain ⟨⟨cs, as⟩, hrest, heq⟩ := Option.map_eq_some_iff.1 h
    cases heq
    exact (ih hrest).trans ((List.suffix_cons _ _).trans (List.suffix_cons _ _))
  | case5 c rest _ _ _ ih =>
    obtain ⟨⟨cs, as⟩, hrest, heq⟩ := Option.map_eq_some_iff.1 h
    cases heq
    exact (ih hrest).trans (List.suffix_cons _ _)

/-- Escapes add spaces and backslashes to what is written, and nothing else. -/
theorem mem_of_mem_body? {s contents after : List Char} (h : body? s = some (contents, after))
    {d : Char} (hd : d ∈ contents) : d ∈ s ∨ d = ' ' ∨ d = '\\' := by
  fun_induction body? s generalizing contents after with
  | case1 => cases h
  | case2 => cases h; cases hd
  | case3 => cases h
  | case4 c rest ih =>
    obtain ⟨⟨cs, as⟩, hrest, heq⟩ := Option.map_eq_some_iff.1 h
    cases heq
    rcases List.mem_append.1 hd with hd | hd
    · rcases mem_of_mem_unescape hd with rfl | hd
      · simp
      · exact .inr hd
    · exact (ih hrest hd).imp_left (by simp_all)
  | case5 c rest _ _ _ ih =>
    obtain ⟨⟨cs, as⟩, hrest, heq⟩ := Option.map_eq_some_iff.1 h
    cases heq
    rcases List.mem_cons.1 hd with rfl | hd
    · simp
    · exact (ih hrest hd).imp_left (by simp_all)

end Text.Quoted

namespace StringLiteral

/-- Printable text without a semicolon becomes a string of the image. -/
theorem isString_terminated {contents : List Char} (hprint : contents.all Quoted.isPrintable = true)
    (hsemi : ';' ∉ contents) : IsString (terminated contents) := by
  refine ⟨_, rfl, ?_⟩
  rw [List.all_map, List.all_eq_true]
  intro c hc
  have hne : c.toNat ≠ 0x3B := fun h ↦ hsemi ((Char.toNat_inj.1 h : c = ';') ▸ hc)
  obtain ⟨hlow, hhigh⟩ := Quoted.isPrintable_iff.1 (List.all_eq_true.1 hprint c hc)
  have hbyte : (UInt8.ofNat c.toNat).toNat = c.toNat := by
    rw [UInt8.toNat_ofNat']
    omega
  simp only [Function.comp_apply, isStringByte, Bool.and_eq_true, decide_eq_true_eq, bne_iff_ne,
    UInt8.le_iff_toNat_le, ne_eq, ← UInt8.toNat_inj, hbyte]
  exact ⟨⟨hlow, Nat.le_of_lt_succ hhigh⟩, hne⟩

/-- A string is read if it has an end and all of it can be printed. -/
theorem parse_eq_ok_iff {text rest : List Char} {bytes : List UInt8} :
    parse text = .ok (bytes, rest) ↔
      ∃ body contents, trimStart text = '"' :: body ∧ Quoted.body? body = some (contents, rest) ∧
        contents.all Quoted.isPrintable = true ∧ bytes = terminated contents := by
  constructor
  · intro h
    rw [parse] at h
    split at h
    · rename_i body htrim
      split at h
      · exact absurd h (by simp)
      · rename_i contents after hcontents
        split at h
        · rename_i hprint
          obtain ⟨rfl, rfl⟩ := Prod.mk.inj (Except.ok.inj h)
          exact ⟨body, contents, htrim, hcontents, hprint, rfl⟩
        · exact absurd h (by simp)
    · exact absurd h (by simp)
  · rintro ⟨body, contents, htrim, hcontents, hprint, rfl⟩
    rw [parse, htrim]
    simp only [hcontents, if_pos hprint]

/-- A string that is read from a text without semicolons is a string of the image, and what follows
it has no semicolons either. -/
theorem isString_of_parse {text rest : List Char} {bytes : List UInt8} (hsemi : ';' ∉ text)
    (h : parse text = .ok (bytes, rest)) : IsString bytes ∧ ';' ∉ rest := by
  obtain ⟨body, contents, htrim, hcontents, hprint, rfl⟩ := parse_eq_ok_iff.1 h
  have hbody : body <:+ text := (List.suffix_cons _ _).trans (htrim ▸ trimStart_suffix text)
  refine ⟨isString_terminated hprint fun hmem ↦ ?_, fun hmem ↦ ?_⟩
  · rcases Quoted.mem_of_mem_body? hcontents hmem with hmem | hmem
    · exact hsemi (hbody.subset hmem)
    · revert hmem
      decide
  · exact hsemi (hbody.subset ((Quoted.suffix_of_body? hcontents).subset hmem))

/-- What every string has that is read from a suitable text, a row of strings has, if what follows a
string is suitable again. The recursion of `parseMany` follows the text that is left, and so does
this induction. -/
theorem forall_mem_of_parseMany {P : List UInt8 → Prop} {Q : List Char → Prop}
    (hparse : ∀ {text bytes rest}, Q text → parse text = .ok (bytes, rest) → P bytes ∧ Q rest)
    {text : List Char} {options : List (List UInt8)} (htext : Q text)
    (h : parseMany text = .ok options) : options ≠ [] ∧ ∀ o ∈ options, P o := by
  induction hlen : text.length using Nat.strongRecOn generalizing text options with
  | ind n ih =>
    rw [parseMany_eq_bind] at h
    obtain ⟨⟨bytes, rest⟩, hfirst, h⟩ := bind_eq_ok_iff.1 h
    obtain ⟨hbytes, hrest⟩ := hparse htext hfirst
    dsimp only at h
    split at h
    · obtain rfl := Except.ok.inj h
      simp [hbytes]
    · obtain ⟨tail, htail, rfl⟩ := map_eq_ok_iff.1 h
      have hlt : rest.length < n := hlen ▸ length_rest_lt hfirst
      obtain ⟨-, hmem⟩ := ih _ hlt hrest htail rfl
      exact ⟨by simp, List.forall_mem_cons.2 ⟨hbytes, hmem⟩⟩

end StringLiteral

/-! ### Operands -/

/-- What is read as a register has a proper name, no `&`, and no value. -/
theorem RegisterRef.wellFormed_of_parse {text : List Char} {r : RegisterRef}
    (h : parse text = .ok r) : r.WellFormed ∧ r.mode ≠ .addressOf ∧ r.value = none := by
  unfold parse at h
  split at h
  rename_i name mode hmark
  split at h
  · rename_i hname
    cases h
    refine ⟨by simpa [WellFormed] using hname, ?_, rfl⟩
    split at hmark <;> cases hmark <;> simp
  · cases h

/-- What is read as a label has a proper name and no value. -/
theorem LabelRef.wellFormed_of_parse {text : List Char} {t : LabelRef} (h : parse text = .ok t) :
    Name.isLabel t.label.toList = true ∧ t.value = none := by
  rw [parse] at h
  split at h <;> cases h
  exact ⟨by simpa using ‹_›, rfl⟩

/-- What is read as an immediate value may be stored. -/
theorem Source.wellFormed_of_parseImmediate {text : List Char} {source : Source}
    (h : parseImmediate text = .ok source) :
    source.WellFormed .stor ∧ ∀ r ∈ source.register?, r.value = none := by
  unfold parseImmediate at h
  split at h
  · split at h <;> cases h
    refine ⟨⟨by simpa [RegisterRef.WellFormed] using ‹_›, by simp⟩, ?_⟩
    rintro r ⟨⟩
    rfl
  · obtain ⟨v, -, rfl⟩ := map_eq_ok_iff.1 h
    exact ⟨rfl, by simp [register?]⟩

/-! ### One reader per shape -/

namespace Instruction

variable {op : Opcode} {params : List Char} {i : Instruction}

theorem wellFormed_of_parseBare (hop : op.shape = .bare) (h : parseBare op params = .ok i) :
    i.WellFormed ∧ i.Unbound := by
  rw [parseBare] at h
  split at h <;> cases h
  exact ⟨.bare hop, by simp [Unbound, registers, target?]⟩

theorem wellFormed_of_parseRegister (hop : op.shape = .register)
    (h : parseRegister op params = .ok i) : i.WellFormed ∧ i.Unbound := by
  obtain ⟨r, hr, h⟩ := bind_eq_ok_iff.1 h
  obtain ⟨hwf, hmode, hvalue⟩ := RegisterRef.wellFormed_of_parse hr
  split at h
  · cases h
  · rename_i hdirect
    cases h
    refine ⟨.register hop hwf ?_, by simp [Unbound, registers, target?, hvalue]⟩
    cases hm : r.mode <;> simp_all

theorem wellFormed_of_parseAddress (hop : op.shape = .address)
    (h : parseAddress op params = .ok i) : i.WellFormed ∧ i.Unbound := by
  obtain ⟨t, ht, h⟩ := bind_eq_ok_iff.1 h
  obtain ⟨hname, hvalue⟩ := LabelRef.wellFormed_of_parse ht
  cases h
  exact ⟨.address hop hname, by simp [Unbound, registers, target?, hvalue]⟩

/-- What is read as a source may stand in front of its destination. -/
theorem wellFormed_of_parseSource {text : List Char} {source : Source}
    (h : parseSource op text = .ok source) :
    source.WellFormed op ∧ ∀ r ∈ source.register?, r.value = none := by
  rw [parseSource] at h
  split at h
  · rename_i hstor
    exact hstor ▸ Source.wellFormed_of_parseImmediate h
  · rename_i hstor
    obtain ⟨r, hr, rfl⟩ := map_eq_ok_iff.1 h
    obtain ⟨hwf, hmode, hvalue⟩ := RegisterRef.wellFormed_of_parse hr
    exact ⟨⟨hwf, by simp [hmode, hstor]⟩, by simp [Source.register?, hvalue]⟩

theorem wellFormed_of_parsePair (hop : op.shape = .pair) (h : parsePair op params = .ok i) :
    i.WellFormed ∧ i.Unbound := by
  rw [parsePair] at h
  split at h
  · obtain ⟨source, hsource, h⟩ := bind_eq_ok_iff.1 h
    obtain ⟨dest, hdest, h⟩ := bind_eq_ok_iff.1 h
    obtain ⟨hswf, hsvalue⟩ := wellFormed_of_parseSource hsource
    obtain ⟨hdwf, hdmode, hdvalue⟩ := RegisterRef.wellFormed_of_parse hdest
    cases h
    refine ⟨.pair hop hswf hdwf hdmode, ?_, by simp [target?]⟩
    intro r hr
    rcases List.mem_append.1 hr with hr | hr
    · exact hsvalue r (by simpa using hr)
    · rw [List.mem_singleton.1 hr, hdvalue]
  · cases h

theorem wellFormed_of_parseTile (h : parseTile params = .ok i) : i.WellFormed ∧ i.Unbound := by
  rw [parseTile] at h
  split at h
  · obtain ⟨id, hid, h⟩ := bind_eq_ok_iff.1 h
    -- the rows are eight literals; whatever they are, only the number of the tile is bounded
    simp only [bind_eq_ok_iff] at h
    obtain ⟨a, -, b, -, c, -, d, -, e, -, f, -, g, -, k, -, h⟩ := h
    cases h
    obtain ⟨v, -, hid⟩ := bind_eq_ok_iff.1 hid
    split at hid <;> cases hid
    rename_i hle
    exact ⟨.tile (UInt8.not_lt.1 hle), by simp [Unbound, registers, target?]⟩
  · cases h

/-- The register in front of strings, and strings without a semicolon behind it. -/
theorem wellFormed_of_parsePosition {r : RegisterRef} {rest : List Char}
    (h : parsePosition op params = .ok (r, rest)) (hsemi : ';' ∉ params) :
    (r.WellFormed ∧ r.mode ≠ .addressOf ∧ r.value = none) ∧ ';' ∉ rest := by
  rw [parsePosition] at h
  split at h
  · cases h
  · obtain ⟨r', hr, h⟩ := bind_eq_ok_iff.1 h
    cases h
    exact ⟨RegisterRef.wellFormed_of_parse hr, fun hmem ↦ hsemi (mem_of_mem_cutToken hmem)⟩

theorem checkPayload_eq_ok_iff {length : Nat} :
    checkPayload length = .ok () ↔ length ≤ maxPayload := by
  rw [checkPayload]
  split <;> simp_all

/-- The operands of a line hold no semicolon, so neither does the string that is drawn. -/
theorem wellFormed_of_parseText (h : parseText params = .ok i) (hsemi : ';' ∉ params) :
    i.WellFormed ∧ i.Unbound := by
  obtain ⟨⟨r, rest⟩, hposition, h⟩ := bind_eq_ok_iff.1 h
  obtain ⟨⟨hwf, hmode, hvalue⟩, hrest⟩ := wellFormed_of_parsePosition hposition hsemi
  obtain ⟨⟨bytes, tail⟩, hbytes, h⟩ := bind_eq_ok_iff.1 h
  obtain ⟨hstring, -⟩ := StringLiteral.isString_of_parse hrest hbytes
  dsimp only at h
  split at h
  · obtain ⟨⟨⟩, hlength, h⟩ := bind_eq_ok_iff.1 h
    cases h
    exact ⟨.text hwf hmode hstring (checkPayload_eq_ok_iff.1 hlength),
      by simp [Unbound, registers, target?, hvalue]⟩
  · cases h

theorem wellFormed_of_parseSelector (h : parseSelector params = .ok i) (hsemi : ';' ∉ params) :
    i.WellFormed ∧ i.Unbound := by
  obtain ⟨⟨r, rest⟩, hposition, h⟩ := bind_eq_ok_iff.1 h
  obtain ⟨⟨hwf, hmode, hvalue⟩, hrest⟩ := wellFormed_of_parsePosition hposition hsemi
  obtain ⟨options, hoptions, h⟩ := bind_eq_ok_iff.1 h
  obtain ⟨hne, hstrings⟩ :=
    StringLiteral.forall_mem_of_parseMany StringLiteral.isString_of_parse hrest hoptions
  obtain ⟨⟨⟩, hlength, h⟩ := bind_eq_ok_iff.1 h
  cases h
  exact ⟨.selector hwf hmode hne hstrings (checkPayload_eq_ok_iff.1 hlength),
    by simp [Unbound, registers, target?, hvalue]⟩

/-- The reader of a shape gives instructions of that shape. -/
theorem shape?_of_parseOperands (h : parseOperands op params = .ok i) :
    i.shape? = some op.shape := by
  rw [parseOperands] at h
  split at h <;> rename_i hop <;> rw [hop]
  · rw [parseBare] at h
    split at h
    · obtain rfl := Except.ok.inj h
      rfl
    · exact absurd h (by simp)
  · obtain ⟨r, -, h⟩ := bind_eq_ok_iff.1 h
    split at h
    · exact absurd h (by simp)
    · obtain rfl := Except.ok.inj h
      rfl
  · obtain ⟨t, -, h⟩ := bind_eq_ok_iff.1 h
    obtain rfl := Except.ok.inj h
    rfl
  · rw [parsePair] at h
    split at h
    · obtain ⟨source, -, h⟩ := bind_eq_ok_iff.1 h
      obtain ⟨dest, -, h⟩ := bind_eq_ok_iff.1 h
      obtain rfl := Except.ok.inj h
      rfl
    · exact absurd h (by simp)
  · rw [parseTile] at h
    split at h
    · simp only [bind_eq_ok_iff] at h
      obtain ⟨id, -, a, -, b, -, c, -, d, -, e, -, f, -, g, -, k, -, h⟩ := h
      obtain rfl := Except.ok.inj h
      rfl
    · exact absurd h (by simp)
  · obtain ⟨position, -, h⟩ := bind_eq_ok_iff.1 h
    obtain ⟨literal, -, h⟩ := bind_eq_ok_iff.1 h
    dsimp only at h
    split at h
    · obtain ⟨-, -, h⟩ := bind_eq_ok_iff.1 h
      obtain rfl := Except.ok.inj h
      rfl
    · exact absurd h (by simp)
  · obtain ⟨position, -, h⟩ := bind_eq_ok_iff.1 h
    obtain ⟨options, -, h⟩ := bind_eq_ok_iff.1 h
    obtain ⟨-, -, h⟩ := bind_eq_ok_iff.1 h
    obtain rfl := Except.ok.inj h
    rfl

/-- A mnemonic is never read as a label. -/
theorem isLabel_of_parse {text : List Char} (h : parse text = .ok i) : i.isLabel = false := by
  rw [parse] at h
  dsimp only at h
  split at h
  · exact absurd h (by simp)
  · have hshape := shape?_of_parseOperands h
    match i with
    | .label _ _ => exact absurd hshape (by simp [shape?])
    | .bare _ | .register _ _ | .address _ _ | .pair _ _ _ | .tile _ _ | .text _ _
    | .selector _ _ => rfl

/-- Whatever is read from a text without semicolons is well formed, and nothing in it is bound. -/
theorem wellFormed_of_parse {text : List Char} (h : parse text = .ok i) (hsemi : ';' ∉ text) :
    i.WellFormed ∧ i.Unbound := by
  have hparams : ';' ∉ (cutToken text).2 := fun hmem ↦ hsemi (mem_of_mem_cutToken hmem)
  rw [parse] at h
  dsimp only at h
  split at h
  · cases h
  · rw [parseOperands] at h
    split at h <;> rename_i hop
    · exact wellFormed_of_parseBare hop h
    · exact wellFormed_of_parseRegister hop h
    · exact wellFormed_of_parseAddress hop h
    · exact wellFormed_of_parsePair hop h
    · exact wellFormed_of_parseTile h
    · exact wellFormed_of_parseText h hparams
    · exact wellFormed_of_parseSelector h hparams

end Instruction

/-! ### Lines and programs -/

theorem ParsedLine.eq_ok_of_mem_ofInstruction {x : Except ParseError Instruction}
    {i : Instruction} (h : i ∈ (ofInstruction x).instructions) : x = .ok i := by
  cases x with
  | error e => simp [ofInstruction] at h
  | ok j =>
    rw [List.mem_singleton.1 h]

/-- All that a line of code gives is well-formed and has no values, labels included. -/
theorem ParsedLine.wellFormed_of_mem_parse {text : List Char} {doc : List String}
    {i : Instruction} (h : i ∈ (parse text doc).instructions) (hsemi : ';' ∉ text) :
    i.WellFormed ∧ i.Unbound := by
  have hparams : ';' ∉ (cutToken text).2 := fun hmem ↦ hsemi (mem_of_mem_cutToken hmem)
  rw [parse] at h
  split at h
  · rename_i name params hcut
    rw [hcut] at hparams
    split at h
    · rename_i hname
      rcases List.mem_cons.1 h with rfl | h
      · exact ⟨.label (by simpa using hname), by simp [Instruction.Unbound, Instruction.registers,
          Instruction.target?]⟩
      · split at h
        · cases h
        · exact Instruction.wellFormed_of_parse (eq_ok_of_mem_ofInstruction h) hparams
    · cases h
  · exact Instruction.wellFormed_of_parse (eq_ok_of_mem_ofInstruction h) hsemi

/-- Every line of code is the code of a source line. -/
theorem CodeLine.exists_of_mem_collect {c : CodeLine} {pending : PendingComments}
    {lines : List SourceLine} (h : c ∈ collect [] pending lines) :
    ∃ line ∈ lines, c.code = line.code := by
  induction lines generalizing pending with
  | nil => simp [collect] at h
  | cons line rest ih =>
    simp only [collect] at h
    split at h
    · obtain ⟨l, hl, hcode⟩ := ih h
      exact ⟨l, by simp [hl], hcode⟩
    · rw [collect_eq_append] at h
      rcases List.mem_append.1 h with h | h
      · exact ⟨line, by simp, by simp_all⟩
      · obtain ⟨l, hl, hcode⟩ := ih h
        exact ⟨l, by simp [hl], hcode⟩

/-- The code of a line ends in front of its first semicolon. -/
theorem SourceLine.semicolon_notMem_code_ofText (number : Nat) (raw : List Char) :
    ';' ∉ (ofText number raw).code := by
  intro hmem
  have := List.mem_takeWhile_imp (mem_of_mem_trim hmem)
  simp at this

/-- A line without a semicolon is all code. -/
theorem SourceLine.ofText_of_notMem {raw : List Char} (h : ';' ∉ raw) (number : Nat) :
    ofText number raw =
      { number, code := trim raw, comment? := none, isBlank := isBlankText raw } := by
  have hcode : ∀ c ∈ raw, (c != ';') = true := by
    intro c hc
    rw [bne_iff_ne]
    rintro rfl
    exact h hc
  rw [ofText, List.takeWhile_eq_self_iff.2 hcode, List.dropWhile_eq_nil_iff.2 hcode]

theorem SourceLine.semicolon_notMem_code {source : String} {line : SourceLine}
    (h : line ∈ scan source) : ';' ∉ line.code := by
  obtain ⟨⟨raw, number⟩, -, rfl⟩ := List.mem_map.1 h
  exact semicolon_notMem_code_ofText number raw

/-- **A source gives well-formed instructions without values.** It is put together from what its
lines give, and none of them holds a semicolon. -/
theorem wellFormed_and_unbound_of_mem_compile {source : String} {i : Instruction}
    (h : i ∈ (compile source).program) : i.WellFormed ∧ i.Unbound := by
  obtain ⟨⟨number, parsed⟩, hparsed, hi⟩ := List.mem_flatMap.1 h
  obtain ⟨c, hc, heq⟩ := List.mem_map.1 hparsed
  cases heq
  obtain ⟨line, hline, hcode⟩ := CodeLine.exists_of_mem_collect hc
  refine ParsedLine.wellFormed_of_mem_parse hi ?_
  rw [hcode]
  exact SourceLine.semicolon_notMem_code hline

/-- **Everything the parser lets through is well formed.** -/
theorem wellFormed_of_mem_compile {source : String} {i : Instruction}
    (h : i ∈ (compile source).program) : i.WellFormed :=
  (wellFormed_and_unbound_of_mem_compile h).1

/-- **And nothing in it is bound.** -/
theorem unbound_of_mem_compile {source : String} {i : Instruction}
    (h : i ∈ (compile source).program) : i.Unbound :=
  (wellFormed_and_unbound_of_mem_compile h).2

end TileAsm
