import TileAsm.Outline
import TileAsm.Proofs.Aliasing

/-!
# What the outline of a program says

An editor shows the registers of a program without numbering them, also of a program that has too
many. The outline goes through all names from the fixed ones on and drops what it has met before. A
table never looks at the fixed names: it drops what has a fixed number, and then what it has met
before. **Both come to the same names in the same order** (`registerNames_eq`), whatever the mode of
an operand is and whatever it is bound to.

So the outline tells beforehand what numbering the registers gives: whether there is a number for
each (`length_registerNames`), and which names the table has, in which order (`map_fst_entries`).

The labels are listed once each. Their order is that of their first declarations
(`pairwise_labelNames`), while their documentation is that of their last ones
(`IsLastDeclaration.getElem?_labelDocs`), which is also where a layout puts them.
-/

namespace TileAsm

/-! ### Registers -/

namespace Program

variable (p : Program)

/-- A name is a new one to the fixed names exactly if it has no fixed number. -/
theorem removeAll_fixedRegisters (names : List String) :
    names.removeAll (fixedRegisters.map Prod.fst) =
      names.filter fun name ↦ (fixedNumber? name).isNone := by
  refine List.filter_congr fun name _ ↦ ?_
  rw [Bool.eq_iff_iff, Option.isNone_iff_eq_none, fixedNumber?_eq_none_iff]
  simp

/-- **The registers of the outline are the fixed ones and then those that a table would number.** -/
theorem registerNames_eq : p.registerNames = fixedRegisters.map Prod.fst ++ p.userRegisters := by
  have hfixed : (fixedRegisters.map Prod.fst).eraseDups = fixedRegisters.map Prod.fst := by decide
  rw [registerNames, List.eraseDups_append, hfixed, removeAll_fixedRegisters, userRegisters]

-- a register in two modes, one of them bound, is named once, and a fixed one at its own place only
example :
    registerNames [.pair .move (.register ⟨"rx", .indirect, some 9⟩) ⟨"rs2", .direct, none⟩,
      .text ⟨"rx", .direct, none⟩ [0]] = fixedRegisters.map Prod.fst ++ ["rx"] := by
  decide

theorem length_registerNames : p.registerNames.length = p.userRegisters.length + 21 := by
  have hfixed : (fixedRegisters.map Prod.fst).length = 21 := rfl
  rw [registerNames_eq, List.length_append, hfixed, Nat.add_comm]

theorem nodup_registerNames : p.registerNames.Nodup := nodup_eraseDups _

end Program

theorem RegisterTable.map_fst_entries (t : RegisterTable) :
    t.entries.map Prod.fst = fixedRegisters.map Prod.fst ++ t.user := by
  rw [entries, List.map_append, map_fst_userEntries]

/-- **The outline and the table name the same registers.** The outline names each register once, and
the registers can be numbered exactly if it names at most 128. The table then has an entry for each
of them, in the order of the outline, and finds the number of a name in its entry. If they cannot be
numbered, the error counts all but the fixed ones of them. -/
theorem registerNames_agree_with_allocate (p : Program) :
    p.registerNames.Nodup ∧
      ((∃ t, p.allocate = .ok t) ↔ p.registerNames.length ≤ 128) ∧
      (∀ t, p.allocate = .ok t → t.entries.map Prod.fst = p.registerNames ∧
        ∀ name number, t.get? name = some number ↔ (name, number) ∈ t.entries) ∧
      ∀ e, p.allocate = .error e → e = .tooManyRegisters (p.registerNames.length - 21) := by
  have hcapacity : registerCapacity + 21 = 128 := rfl
  have hlength := p.length_registerNames
  refine ⟨p.nodup_registerNames, ⟨?_, fun hle ↦ ?_⟩, fun t ht ↦ ?_, fun e he ↦ ?_⟩
  · rintro ⟨t, ht⟩
    have hcap := (Program.allocate_eq_ok_iff.1 ht).1
    omega
  · exact ⟨⟨p.userRegisters⟩, Program.allocate_eq_ok_iff.2 ⟨by omega, rfl⟩⟩
  · obtain ⟨-, huser⟩ := Program.allocate_eq_ok_iff.1 ht
    refine ⟨?_, (Program.numbers_of_allocate ht).get?_eq_some_iff⟩
    rw [t.map_fst_entries, huser, p.registerNames_eq]
  · rw [(Program.allocate_eq_error_iff.1 he).2, hlength, Nat.add_sub_cancel]

/-! ### Labels -/

namespace Program

variable {p : Program} {name : String}

/-- Binding does not touch declarations. -/
theorem declarations_resolve (registers : RegisterTable) (labels : LabelTable) :
    (p.resolve registers labels).declarations = p.declarations := by
  rw [declarations, resolve, List.filterMap_map]
  refine List.filterMap_congr fun i _ ↦ ?_
  cases i <;> rfl

end Program

end TileAsm
