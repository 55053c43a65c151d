import TileAsm.Proofs.Bindings

/-!
# Every register has its own number

After its registers are resolved a program refers to them by bytes alone. This module shows that
nothing is lost: two operands have the same number in their bytes exactly if they name the same
register.

Where the operands of an instruction stand is said by `Instruction.Uses`, without the function that
lists them. It lists these and no others (`Instruction.mem_registers_iff`), in the order of their
bytes (`Instruction.exists_uses_of_registers_eq`). A place in a program is an instruction and a byte
of it, and places are ordered lexicographically. `Program.MentionsBefore` compares first mentions in
this order, and the user registers are sorted by it (`Program.pairwise_userRegisters`).

`RegisterTable.Numbers` collects what makes a table the numbering of a program, and
`Program.numbers_of_allocate` shows it of the table that the program is given.
-/

namespace TileAsm

/-! ### Where registers stand -/

/-- The register operands of an instruction, with the byte of the encoding that each one gives. -/
inductive Instruction.Uses : Instruction → Nat → RegisterRef → Prop
  /-- The operand of an instruction on one register. -/
  | register {op : Opcode} {r : RegisterRef} : Uses (.register op r) 1 r
  /-- A register that a value is taken from. -/
  | source {op : Opcode} {r dest : RegisterRef} : Uses (.pair op (.register r) dest) 1 r
  /-- A destination. -/
  | dest {op : Opcode} {source : Source} {r : RegisterRef} : Uses (.pair op source r) 2 r
  /-- The position of a text. -/
  | text {r : RegisterRef} {bytes : List UInt8} : Uses (.text r bytes) 1 r
  /-- The position of a choice. -/
  | selector {r : RegisterRef} {options : List (List UInt8)} : Uses (.selector r options) 1 r

namespace Program

/-- A register operand stands at a place: an instruction of the program and a byte of it. -/
def UsesAt (p : Program) (place : Nat × Nat) (r : RegisterRef) : Prop :=
  ∃ i, p[place.1]? = some i ∧ i.Uses place.2 r

/-- The first mention of a register stands before every mention of another. -/
def MentionsBefore (p : Program) (name other : String) : Prop :=
  ∃ place r, p.UsesAt place r ∧ r.name = name ∧
    ∀ place' r', p.UsesAt place' r' → r'.name = other → Prod.Lex (· < ·) (· < ·) place place'

end Program

namespace Instruction

variable {i : Instruction}

theorem mem_registers_iff {r : RegisterRef} : r ∈ i.registers ↔ ∃ k, i.Uses k r := by
  constructor
  · intro h
    match i with
    | .register op s => exact ⟨1, List.mem_singleton.1 h ▸ .register⟩
    | .pair op (.literal b) dest => exact ⟨2, List.mem_singleton.1 h ▸ .dest⟩
    | .pair op (.register s) dest =>
      rcases List.mem_pair.1 h with rfl | rfl
      · exact ⟨1, .source⟩
      · exact ⟨2, .dest⟩
    | .text s bytes => exact ⟨1, List.mem_singleton.1 h ▸ .text⟩
    | .selector s options => exact ⟨1, List.mem_singleton.1 h ▸ .selector⟩
  · rintro ⟨k, _ | _ | _ | _ | _⟩ <;> simp [registers, Source.register?]

/-- The operands are listed in the order of their bytes. -/
theorem exists_uses_of_registers_eq {before after : List RegisterRef} {r : RegisterRef}
    (h : i.registers = before ++ r :: after) :
    ∃ k, i.Uses k r ∧ ∀ k' s, i.Uses k' s → s ∉ before → s ≠ r → k < k' := by
  have hsingle : ∀ {s : RegisterRef} {front}, [s] = front ++ r :: after → s = r := by
    rintro s (_ | ⟨t, front⟩) heq
    · exact (List.cons.inj heq).1
    · exact absurd (List.cons.inj heq).2 (by simp)
  match i with
  | .register op s =>
    obtain rfl := hsingle h
    exact ⟨1, .register, by rintro _ _ ⟨⟩ - hne; exact absurd rfl hne⟩
  | .pair op (.literal b) dest =>
    obtain rfl := hsingle h
    exact ⟨2, .dest, by rintro _ _ ⟨⟩ - hne; exact absurd rfl hne⟩
  | .pair op (.register s) dest =>
    match before with
    | [] =>
      obtain ⟨rfl, -⟩ := List.cons.inj h
      refine ⟨1, .source, ?_⟩
      rintro _ _ (_ | _) - hne
      · exact absurd rfl hne
      · exact Nat.lt_add_one 1
    | t :: before =>
      obtain ⟨rfl, hrest⟩ := List.cons.inj h
      obtain rfl := hsingle hrest
      refine ⟨2, .dest, ?_⟩
      rintro _ _ (_ | _) hbefore hne
      · exact absurd List.mem_cons_self hbefore
      · exact absurd rfl hne
  | .text s bytes =>
    obtain rfl := hsingle h
    exact ⟨1, .text, by rintro _ _ ⟨⟩ - hne; exact absurd rfl hne⟩
  | .selector s options =>
    obtain rfl := hsingle h
    exact ⟨1, .selector, by rintro _ _ ⟨⟩ - hne; exact absurd rfl hne⟩
  | .label _ _ | .bare _ | .address _ _ | .tile _ _ => exact absurd h (by simp [registers])

end Instruction

namespace Program

variable {p : Program}

theorem mem_registers_iff {r : RegisterRef} : r ∈ p.registers ↔ ∃ place, p.UsesAt place r := by
  rw [registers, List.mem_flatMap]
  constructor
  · rintro ⟨i, hi, hr⟩
    obtain ⟨n, hn⟩ := List.mem_iff_getElem?.1 hi
    obtain ⟨k, hk⟩ := Instruction.mem_registers_iff.1 hr
    exact ⟨(n, k), i, hn, hk⟩
  · rintro ⟨place, i, hi, hr⟩
    exact ⟨i, List.mem_of_getElem? hi, Instruction.mem_registers_iff.2 ⟨place.2, hr⟩⟩

theorem usesAt_cons_zero {i : Instruction} {k : Nat} {r : RegisterRef} :
    UsesAt (i :: p) (0, k) r ↔ i.Uses k r := by
  simp [UsesAt]

theorem usesAt_cons_succ {i : Instruction} {n k : Nat} {r : RegisterRef} :
    UsesAt (i :: p) (n + 1, k) r ↔ p.UsesAt (n, k) r := by
  simp [UsesAt]

/-- The operands of a program are listed in the order of their places. -/
theorem exists_usesAt_of_registers_eq {before after : List RegisterRef} {r : RegisterRef}
    (h : p.registers = before ++ r :: after) :
    ∃ place, p.UsesAt place r ∧ ∀ place' s, p.UsesAt place' s → s ∉ before → s ≠ r →
      Prod.Lex (· < ·) (· < ·) place place' := by
  induction p generalizing before with
  | nil => exact absurd h (by simp [registers])
  | cons i p ih =>
    have h : i.registers ++ registers p = before ++ r :: after := h
    -- the operand is one of the first instruction, or all of these come before it
    have hcases : (∃ rest, i.registers = before ++ r :: rest) ∨
        ∃ rest, before = i.registers ++ rest ∧ registers p = rest ++ r :: after := by
      rcases List.append_eq_append_iff.1 h with ⟨rest, hbefore, hrest⟩ | ⟨rest, hbefore, hrest⟩
      · exact .inr ⟨rest, hbefore, hrest⟩
      · rcases rest with _ | ⟨s, rest⟩
        · exact .inr ⟨[], by simpa using hbefore.symm, hrest.symm⟩
        · obtain ⟨rfl, -⟩ := List.cons.inj hrest
          exact .inl ⟨rest, hbefore⟩
    rcases hcases with ⟨rest, hrest⟩ | ⟨rest, rfl, hrest⟩
    · obtain ⟨k, hk, hlater⟩ := Instruction.exists_uses_of_registers_eq hrest
      refine ⟨(0, k), usesAt_cons_zero.2 hk, ?_⟩
      rintro ⟨_ | n, k'⟩ s hs hbefore hne
      · exact .right 0 (hlater k' s (usesAt_cons_zero.1 hs) hbefore hne)
      · exact .left _ _ n.succ_pos
    · obtain ⟨⟨m, k⟩, hk, hlater⟩ := ih hrest
      refine ⟨(m + 1, k), usesAt_cons_succ.2 hk, ?_⟩
      rintro ⟨_ | n, k'⟩ s hs hbefore hne
      · have hmem := Instruction.mem_registers_iff.2 ⟨k', usesAt_cons_zero.1 hs⟩
        exact absurd (List.mem_append_left _ hmem) hbefore
      · have hrest : s ∉ rest := fun hmem ↦ hbefore (List.mem_append_right _ hmem)
        have := hlater (n, k') s (usesAt_cons_succ.1 hs) hrest hne
        rw [Prod.lex_def] at this ⊢
        simpa using this

/-- The user registers of a program are in the order of their first mentions. -/
theorem pairwise_userRegisters (p : Program) : p.userRegisters.Pairwise p.MentionsBefore := by
  refine (pairwise_eraseDups _).imp_of_mem ?_
  rintro name other - hother ⟨hne, before, after, hsplit, hbefore⟩
  have huser := (List.mem_filter.1 (List.mem_eraseDups.1 hother)).2
  -- a split of the user registers is one of the operands
  obtain ⟨front, back, hnames, rfl⟩ := exists_split_of_filter_eq hsplit
  obtain ⟨front, rest, hregisters, rfl, hrest⟩ := List.map_eq_append_iff.1 hnames
  obtain ⟨r, back, rfl, rfl, -⟩ := List.map_eq_cons_iff.1 hrest
  obtain ⟨place, hplace, hlater⟩ := exists_usesAt_of_registers_eq hregisters
  refine ⟨place, r, hplace, rfl, fun place' s hs hname ↦ hlater place' s hs ?_ ?_⟩
  · intro hmem
    exact hbefore (List.mem_filter.2 ⟨hname ▸ List.mem_map_of_mem hmem, huser⟩)
  · rintro rfl
    exact hne hname

end Program

/-! ### Entries of a table -/

theorem fixedNumber?_eq_none_iff {name : String} :
    fixedNumber? name = none ↔ name ∉ fixedRegisters.map Prod.fst := by
  simp only [fixedNumber?, List.lookup_eq_none_iff, bne_iff_ne, List.mem_map, not_exists, not_and]
  exact forall₂_congr fun _ _ ↦ ne_comm

namespace RegisterTable

/-- A table **numbers** the registers of a program: what the entries are, and that they keep the
registers apart. -/
structure Numbers (t : RegisterTable) (p : Program) : Prop where
  /-- The user registers are the names in the program that are not fixed. -/
  mem_user_iff : ∀ name, name ∈ t.userEntries.map Prod.fst ↔
    name ∉ fixedRegisters.map Prod.fst ∧ ∃ place r, p.UsesAt place r ∧ r.name = name
  /-- They are in the order of their first mentions. -/
  pairwise : (t.userEntries.map Prod.fst).Pairwise p.MentionsBefore
  /-- They are numbered consecutively. -/
  consecutive : t.userEntries.map (·.2.toNat) = List.range' 5 t.userEntries.length
  /-- They stay below the last sixteen numbers. -/
  le : ∀ entry ∈ t.userEntries, entry.2.toNat ≤ 111
  /-- No register has two entries. -/
  nodup_names : (t.entries.map Prod.fst).Nodup
  /-- No number has two entries. -/
  nodup_numbers : (t.entries.map Prod.snd).Nodup
  /-- Every number fits into seven bits. -/
  lt : ∀ entry ∈ t.entries, entry.2.toNat < 128
  /-- The number of a register is that of its entry. -/
  get?_eq_some_iff : ∀ name number, t.get? name = some number ↔ (name, number) ∈ t.entries

variable {t : RegisterTable}

theorem map_fst_userEntries (t : RegisterTable) : t.userEntries.map Prod.fst = t.user := by
  rw [userEntries, List.map_map]
  exact List.zipIdx_map_fst ..

/-- User registers are numbered one after the other. -/
theorem map_toNat_userEntries (hcap : t.user.length ≤ registerCapacity) :
    t.userEntries.map (·.2.toNat) = List.range' firstUserNumber t.user.length := by
  have hroom : firstUserNumber + registerCapacity ≤ UInt8.size := by decide
  calc t.userEntries.map (·.2.toNat)
    _ = ((t.user.zipIdx firstUserNumber).map Prod.snd).map fun n ↦ (UInt8.ofNat n).toNat := by
        rw [userEntries, List.map_map, List.map_map]
        rfl
    _ = (List.range' firstUserNumber t.user.length).map id := by
        rw [List.zipIdx_map_snd]
        refine List.map_congr_left fun n hn ↦ ?_
        rw [List.mem_range'_1] at hn
        exact UInt8.toNat_ofNat_of_lt' (by omega)
    _ = List.range' firstUserNumber t.user.length := List.map_id _

/-- A table is looked up among all of its entries, of which the fixed ones come first. -/
theorem get?_eq_lookup (t : RegisterTable) (name : String) :
    t.get? name = t.entries.lookup name := by
  rw [get?, entries, List.lookup_append, fixedNumber?, Option.orElse_eq_orElse, Option.orElse_eq_or]

theorem nodup_map_fst_entries (hnodup : t.user.Nodup)
    (hfixed : ∀ name ∈ t.user, fixedNumber? name = none) : (t.entries.map Prod.fst).Nodup := by
  rw [entries, List.map_append, map_fst_userEntries, List.nodup_append]
  refine ⟨by decide, hnodup, ?_⟩
  rintro name hname _ huser rfl
  exact fixedNumber?_eq_none_iff.1 (hfixed name huser) hname

end RegisterTable

/-- A program is given a table that numbers its registers. -/
theorem Program.numbers_of_allocate {p : Program} {t : RegisterTable} (h : p.allocate = .ok t) :
    t.Numbers p := by
  obtain ⟨hcap, huser⟩ := allocate_eq_ok_iff.1 h
  rw [← huser] at hcap
  have hnames : (t.entries.map Prod.fst).Nodup := by
    refine RegisterTable.nodup_map_fst_entries (huser ▸ p.nodup_userRegisters) fun name hname ↦ ?_
    exact (mem_userRegisters.1 (huser ▸ hname)).2
  have hget : ∀ name number, t.get? name = some number ↔ (name, number) ∈ t.entries := by
    intro name number
    rw [t.get?_eq_lookup, lookup_eq_some_iff_mem hnames]
  have hlength : t.userEntries.length = t.user.length := by
    rw [← t.map_fst_userEntries, List.length_map]
  refine ⟨?_, ?_, ?_, ?_, hnames, ?_, ?_, hget⟩
  · intro name
    rw [t.map_fst_userEntries, huser, mem_userRegisters, fixedNumber?_eq_none_iff, and_comm]
    simp only [mem_registers_iff]
    exact and_congr_right' ⟨fun ⟨r, ⟨place, hr⟩, hname⟩ ↦ ⟨place, r, hr, hname⟩,
      fun ⟨place, r, hr, hname⟩ ↦ ⟨r, ⟨place, hr⟩, hname⟩⟩
  · rw [t.map_fst_userEntries, huser]
    exact p.pairwise_userRegisters
  · rw [RegisterTable.map_toNat_userEntries hcap, hlength]
    rfl
  · intro entry hentry
    have hmem : entry.2.toNat ∈ t.userEntries.map (·.2.toNat) := List.mem_map_of_mem hentry
    rw [RegisterTable.map_toNat_userEntries hcap, List.mem_range'_1] at hmem
    have hlast : firstUserNumber + registerCapacity = 112 := rfl
    omega
  · -- two entries with one number are two registers with one number
    refine hnames.of_map.map_on ?_
    rintro ⟨name, number⟩ hentry ⟨other, _⟩ hother rfl
    rw [RegisterTable.get?_inj hcap ((hget ..).2 hentry) ((hget ..).2 hother)]
  · rintro ⟨name, number⟩ hentry
    exact RegisterTable.get?_lt hcap ((hget ..).2 hentry)

/-! ### Bytes of a resolved program -/

/-- The low seven bits of the byte of an operand are the number of its register. -/
theorem RegisterMode.and_encode (mode : RegisterMode) {number : UInt8} (h : number.toNat < 128) :
    mode.encode number &&& 0x7F = number := by
  have hbyte := mode.toNat_encode h
  rw [← UInt8.toNat_inj, UInt8.toNat_and, show (0x7F : UInt8).toNat = 2 ^ 7 - 1 from rfl,
    Nat.and_two_pow_sub_one_eq_mod, hbyte]
  split <;> omega

/-- Every register operand is bound to the number of its register, in its mode. -/
theorem Program.value_of_usesAt {p : Program} {t : RegisterTable} (h : p.allocate = .ok t)
    {place : Nat × Nat} {r : RegisterRef} (hr : (p.bindRegisters t.get?).UsesAt place r) :
    ∃ number, t.get? r.name = some number ∧ r.value = some (r.mode.encode number) := by
  have hmem := mem_registers_iff.2 ⟨place, hr⟩
  rw [registers_bindRegisters] at hmem
  obtain ⟨s, hs, rfl⟩ := List.mem_map.1 hmem
  obtain ⟨number, hnumber⟩ := exists_get?_of_allocate h hs
  rw [hnumber]
  exact ⟨number, hnumber, rfl⟩

/-- **Resolving registers does not alias.** The table numbers the registers of the program, the
resolved program differs from it only in values, each of its register operands has the number of its
register and its mode in its byte, and the low seven bits tell the registers apart. -/
theorem resolveRegisters_alias_free {p p' : Program} {t : RegisterTable}
    (h : p.resolveRegisters = (.ok t, p')) :
    t.Numbers p ∧ p'.unbind = p.unbind ∧
    (∀ place r, p'.UsesAt place r → ∃ number b, t.get? r.name = some number ∧ r.value = some b ∧
      b.toNat = number.toNat + if r.mode = .indirect then 128 else 0) ∧
    ∀ place place' r r' b b', p'.UsesAt place r → p'.UsesAt place' r' →
      r.value = some b → r'.value = some b' → (b &&& 0x7F = b' &&& 0x7F ↔ r.name = r'.name) := by
  obtain ⟨ht, rfl⟩ : p.allocate = .ok t ∧ p.bindRegisters t.get? = p' := by
    rw [Program.resolveRegisters_eq] at h
    rcases hallocate : p.allocate with e | table <;> rw [hallocate] at h <;> cases h
    exact ⟨rfl, rfl⟩
  have hcap := Program.length_user_le_of_allocate ht
  refine ⟨Program.numbers_of_allocate ht, p.unbind_bindRegisters _, ?_, ?_⟩
  · intro place r hr
    obtain ⟨number, hnumber, hvalue⟩ := Program.value_of_usesAt ht hr
    exact ⟨number, _, hnumber, hvalue, r.mode.toNat_encode (RegisterTable.get?_lt hcap hnumber)⟩
  · intro place place' r r' b b' hr hr' hb hb'
    obtain ⟨number, hnumber, hvalue⟩ := Program.value_of_usesAt ht hr
    obtain ⟨number', hnumber', hvalue'⟩ := Program.value_of_usesAt ht hr'
    obtain rfl : r.mode.encode number = b := Option.some.inj (hvalue.symm.trans hb)
    obtain rfl : r'.mode.encode number' = b' := Option.some.inj (hvalue'.symm.trans hb')
    rw [r.mode.and_encode (RegisterTable.get?_lt hcap hnumber),
      r'.mode.and_encode (RegisterTable.get?_lt hcap hnumber')]
    constructor
    · rintro rfl
      exact RegisterTable.get?_inj hcap hnumber hnumber'
    · intro hname
      rw [hname, hnumber'] at hnumber
      exact (Option.some.inj hnumber).symm

/-- A register in two modes, one of them bound before, next to a fixed one and another. -/
theorem alias_free_of_stale_values :
    let p : Program := [.pair .move (.register ⟨"rx", .indirect, some 9⟩) ⟨"rx", .direct, none⟩,
      .text ⟨"rs2", .direct, none⟩ [0],
      .pair .stor (.register ⟨"ry", .addressOf, none⟩) ⟨"rx", .direct, none⟩]
    let p' : Program := [.pair .move (.register ⟨"rx", .indirect, some 0x85⟩)
        ⟨"rx", .direct, some 0x05⟩,
      .text ⟨"rs2", .direct, some 0x72⟩ [0],
      .pair .stor (.register ⟨"ry", .addressOf, some 0x06⟩) ⟨"rx", .direct, some 0x05⟩]
    let t : RegisterTable := { user := ["rx", "ry"] }
    p.resolveRegisters = (.ok t, p') ∧ t.Numbers p ∧
      ((0x85 : UInt8) &&& 0x7F = 0x05 &&& 0x7F ↔ "rx" = "rx") ∧
      ((0x85 : UInt8) &&& 0x7F = 0x06 &&& 0x7F ↔ "rx" = "ry") := by
  intro p p' t
  have h : p.resolveRegisters = (.ok t, p') := by decide
  obtain ⟨hnumbers, -, -, hapart⟩ := resolveRegisters_alias_free h
  have hsource : p'.UsesAt (0, 1) ⟨"rx", .indirect, some 0x85⟩ := ⟨_, rfl, .source⟩
  exact ⟨h, hnumbers, hapart _ (0, 2) _ _ _ _ hsource ⟨_, rfl, .dest⟩ rfl rfl,
    hapart _ (2, 1) _ _ _ _ hsource ⟨_, rfl, .source⟩ rfl rfl⟩

end TileAsm
