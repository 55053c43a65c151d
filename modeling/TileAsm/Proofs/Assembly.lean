import TileAsm.Assembly
import TileAsm.Proofs.Layout
import TileAsm.Proofs.Numbering
import TileAsm.Proofs.References
import TileAsm.Proofs.WellFormed

/-!
# What assembling gives

The passes over a program write into its operands one after the other, yet none of them reads what
another has written: the register table depends on names, the label table on names and sizes, and
neither changes by binding. So assembling comes to two tables that are computed from the program as
it stands, one substitution of both, and one emission (`assemble_eq`).

From there every outcome is read off the program. After the substitution no register is unbound, so
emission can fail only on a label, and it fails on the first jump whose label is declared nowhere
(`emit_resolve_eq_error_iff`). This needs that no operand was bound beforehand: a jump to an
undeclared label keeps whatever value it had.
-/

namespace TileAsm

/-! ### Substituting both tables -/

/-- An instruction with its operands bound by two tables. -/
def Instruction.resolve (registers : RegisterTable) (labels : LabelTable) (i : Instruction) :
    Instruction :=
  (i.mapRegisters fun r ↦ (registers.get? r.name).elim r r.bindTo).mapTarget
    fun t ↦ (labels[t.label]?).elim t t.bindTo

/-- A program with its operands bound by two tables. -/
def Program.resolve (registers : RegisterTable) (labels : LabelTable) (p : Program) : Program :=
  p.map (Instruction.resolve registers labels)

namespace Instruction

variable {registers : RegisterTable} {labels : LabelTable} {i : Instruction}

@[simp] theorem size_resolve : (i.resolve registers labels).size = i.size := by
  rw [resolve, size_mapTarget, size_mapRegisters]

@[simp] theorem isLabel_resolve : (i.resolve registers labels).isLabel = i.isLabel := by
  cases i <;> rfl

theorem WellFormed.resolve (h : i.WellFormed) : (i.resolve registers labels).WellFormed := by
  refine (h.mapRegisters ?_ ?_).mapTarget ?_
  · intro r hr
    cases registers.get? r.name <;> exact hr
  · intro r
    cases registers.get? r.name <;> rfl
  · intro t
    cases labels[t.label]? <;> rfl

end Instruction

namespace Program

variable {registers : RegisterTable} {labels : LabelTable} {p : Program}

@[simp] theorem size_resolve : (p.resolve registers labels).size = p.size :=
  size_map_of_size_eq (fun _ ↦ Instruction.size_resolve) p

theorem size_take_resolve (k : Nat) :
    size ((p.resolve registers labels).take k) = size (p.take k) := by
  rw [resolve, ← List.map_take]
  exact size_resolve

theorem bindLabels_bindRegisters :
    (p.bindRegisters registers.get?).bindLabels (labels[·]?) = p.resolve registers labels := by
  simp [bindRegisters_eq, bindLabels_eq, resolve, Function.comp_def, Instruction.resolve]

/-- **The passes are independent**: both tables are those of the program as it stands. -/
theorem assemble_eq (p : Program) :
    p.assemble = do
      let registers ← p.allocate
      let labels ← p.layout
      let image ← (p.resolve registers labels).emit
      return { registers, labels, program := p.resolve registers labels, image } := by
  rw [assemble, resolveRegisters_eq]
  cases p.allocate with
  | error e => rfl
  | ok registers =>
    simp only [ok_bind, resolveLabels, layout_bindRegisters]
    cases p.layout with
    | error e => rfl
    | ok labels => simp only [ok_bind, pure_eq_ok, bindLabels_bindRegisters]

theorem image_assemble (p : Program) :
    Assembly.image <$> p.assemble = (do
      let registers ← p.allocate
      let labels ← p.layout
      (p.resolve registers labels).emit) := by
  rw [assemble_eq]
  rcases p.allocate with e | registers
  · rfl
  · rcases p.layout with e | labels
    · rfl
    · simp only [ok_bind]
      rcases (p.resolve registers labels).emit with e | image <;> rfl

/-- An assembled program, taken apart. -/
theorem assemble_eq_ok_iff {a : Assembly} :
    p.assemble = .ok a ↔
      p.allocate = .ok a.registers ∧ p.layout = .ok a.labels ∧
        a.program = p.resolve a.registers a.labels ∧ a.program.emit = .ok a.image := by
  rw [assemble_eq]
  constructor
  · intro h
    obtain ⟨registers, hregisters, h⟩ := bind_eq_ok_iff.1 h
    obtain ⟨labels, hlabels, h⟩ := bind_eq_ok_iff.1 h
    obtain ⟨image, himage, h⟩ := bind_eq_ok_iff.1 h
    cases h
    exact ⟨hregisters, hlabels, rfl, himage⟩
  · rintro ⟨hregisters, hlabels, hprogram, himage⟩
    rw [hprogram] at himage
    rw [hregisters, ok_bind, hlabels, ok_bind, himage, ok_bind, ← hprogram]
    rfl

/-! ### Where emission fails -/

/-- The first jump of a program, in its order, whose label the program declares nowhere goes to
the given label. -/
def FirstUndeclared (p : Program) (name : String) : Prop :=
  ∃ before i after, p = before ++ i :: after ∧ i.targets name = true ∧ ¬ p.Declares name ∧
    ∀ j ∈ before, ∀ l, j.targets l = true → p.Declares l

theorem targets_iff {i : Instruction} {name : String} :
    i.targets name = true ↔ ∃ t, i.target? = some t ∧ t.label = name := by
  cases h : i.target? <;> simp [Instruction.targets, h]

theorem value_of_mem_registers_resolve {i : Instruction} (hregisters : p.allocate = .ok registers)
    (hi : i ∈ p) {r : RegisterRef} (hr : r ∈ (i.resolve registers labels).registers) :
    ∃ b, r.value = some b := by
  refine value_of_mem_registers_bindRegisters hregisters (List.mem_flatMap.2 ?_)
  refine ⟨_, List.mem_map_of_mem hi, ?_⟩
  rwa [Instruction.resolve, Instruction.registers_mapTarget, ← Instruction.bindRegisters_eq] at hr

/-- An instruction of a resolved program fails exactly if it jumps to an undeclared label. -/
theorem encode_resolve_eq_error_iff {i : Instruction} {e : AsmError}
    (hregisters : p.allocate = .ok registers) (hlabels : p.layout = .ok labels) (hi : i ∈ p)
    (hunbound : i.Unbound) :
    (i.resolve registers labels).encode = .error e ↔
      ∃ name, i.targets name = true ∧ ¬ p.Declares name ∧ e = .unresolved name := by
  rw [Instruction.encode_eq_error_iff_of_bound fun _ ↦ value_of_mem_registers_resolve hregisters hi,
    Instruction.resolve, Instruction.target?_mapTarget, Instruction.target?_mapRegisters]
  constructor
  · rintro ⟨_, hmap, hvalue, rfl⟩
    obtain ⟨t, ht, rfl⟩ := Option.map_eq_some_iff.1 hmap
    cases hlabel : labels[t.label]? with
    | some a => simp [hlabel, LabelRef.bindTo] at hvalue
    | none =>
      rw [getElem?_of_layout hlabels, Option.map_eq_none_iff, lastOffset?_eq_none_iff] at hlabel
      refine ⟨t.label, targets_iff.2 ⟨t, ht, rfl⟩, hlabel, ?_⟩
      cases labels[t.label]? <;> rfl
  · rintro ⟨_, htargets, hdeclares, rfl⟩
    obtain ⟨t, ht, rfl⟩ := targets_iff.1 htargets
    have hlabel : labels[t.label]? = none := by
      rw [getElem?_of_layout hlabels, lastOffset?_eq_none_iff.2 hdeclares]
      rfl
    refine ⟨t, by simp [ht, hlabel], hunbound.2 t ht, rfl⟩

/-- An instruction of a resolved program is encoded if its label is declared. -/
theorem encode_resolve_eq_ok_iff {i : Instruction} (hregisters : p.allocate = .ok registers)
    (hlabels : p.layout = .ok labels) (hi : i ∈ p) (hunbound : i.Unbound) :
    (∃ bytes, (i.resolve registers labels).encode = .ok bytes) ↔
      ∀ l, i.targets l = true → p.Declares l := by
  constructor
  · rintro ⟨bytes, hbytes⟩ l hl
    by_contra hdeclares
    have := (encode_resolve_eq_error_iff hregisters hlabels hi hunbound).2 ⟨l, hl, hdeclares, rfl⟩
    rw [hbytes] at this
    cases this
  · intro h
    cases hencode : (i.resolve registers labels).encode with
    | ok bytes => exact ⟨bytes, rfl⟩
    | error e =>
      obtain ⟨l, hl, hdeclares, -⟩ :=
        (encode_resolve_eq_error_iff hregisters hlabels hi hunbound).1 hencode
      exact absurd (h l hl) hdeclares

/-- Emission fails on the first jump to an undeclared label, and on nothing else. -/
theorem emit_resolve_eq_error_iff {e : AsmError} (hregisters : p.allocate = .ok registers)
    (hlabels : p.layout = .ok labels) (hunbound : ∀ i ∈ p, i.Unbound) :
    (p.resolve registers labels).emit = .error e ↔
      ∃ name, p.FirstUndeclared name ∧ e = .unresolved name := by
  rw [emit_eq_error_iff]
  constructor
  · rintro ⟨before, i, after, heq, hbefore, hi⟩
    obtain ⟨before, rest, rfl, rfl, hrest⟩ := List.map_eq_append_iff.1 heq
    obtain ⟨i, after, rfl, rfl, rfl⟩ := List.map_eq_cons_iff.1 hrest
    obtain ⟨name, htargets, hdeclares, rfl⟩ :=
      (encode_resolve_eq_error_iff hregisters hlabels (by simp) (hunbound i (by simp))).1 hi
    refine ⟨name, ⟨before, i, after, rfl, htargets, hdeclares, ?_⟩, rfl⟩
    intro j hj
    exact (encode_resolve_eq_ok_iff hregisters hlabels (by simp [hj]) (hunbound j (by simp [hj]))).1
      (hbefore _ (List.mem_map_of_mem hj))
  · rintro ⟨name, ⟨before, i, after, rfl, htargets, hdeclares, hbefore⟩, rfl⟩
    refine ⟨before.map (Instruction.resolve registers labels), i.resolve registers labels,
      after.map (Instruction.resolve registers labels), by simp [resolve], ?_, ?_⟩
    · intro _ hmem
      obtain ⟨j, hj, rfl⟩ := List.mem_map.1 hmem
      exact (encode_resolve_eq_ok_iff hregisters hlabels (by simp [hj])
        (hunbound j (by simp [hj]))).2 (hbefore j hj)
    · exact (encode_resolve_eq_error_iff hregisters hlabels (by simp) (hunbound i (by simp))).2
        ⟨name, htargets, hdeclares, rfl⟩

/-! ### The outcome of a program -/

theorem allocate_eq_error_iff {e : AsmError} :
    p.allocate = .error e ↔
      registerCapacity < p.userRegisters.length ∧ e = .tooManyRegisters p.userRegisters.length := by
  by_cases hcap : p.userRegisters.length > registerCapacity
  · simp [allocate, hcap, eq_comm]
  · simp [allocate, hcap]

/-- What fails first decides the error: the registers, the size, the labels. -/
theorem assemble_eq_error_iff (hunbound : ∀ i ∈ p, i.Unbound) {e : AsmError} :
    p.assemble = .error e ↔
      registerCapacity < p.userRegisters.length ∧ e = .tooManyRegisters p.userRegisters.length ∨
      p.userRegisters.length ≤ registerCapacity ∧
        (∃ s, IsLeast p.overflows s ∧ e = .programTooLarge s) ∨
      p.userRegisters.length ≤ registerCapacity ∧ p.size ≤ maxOffset ∧
        ∃ name, p.FirstUndeclared name ∧ e = .unresolved name := by
  rw [assemble_eq]
  cases hregisters : p.allocate with
  | error e' =>
    obtain ⟨hcap, rfl⟩ := allocate_eq_error_iff.1 hregisters
    have hnot : ¬ p.userRegisters.length ≤ registerCapacity := Nat.not_le.2 hcap
    simp [hcap, hnot, eq_comm]
  | ok registers =>
    have hcap := (allocate_eq_ok_iff.1 hregisters).1
    have hnot : ¬ registerCapacity < p.userRegisters.length := Nat.not_lt.2 hcap
    cases hlabels : p.layout with
    | error e' =>
      have hsize : ¬ p.size ≤ maxOffset := fun hle ↦ by
        obtain ⟨table, htable⟩ := layout_eq_ok_iff.2 hle
        rw [htable] at hlabels
        cases hlabels
      rw [← layout_eq_error_iff, hlabels]
      simp [hcap, hnot, hsize]
    | ok labels =>
      have hsize := layout_eq_ok_iff.1 ⟨labels, hlabels⟩
      rw [← layout_eq_error_iff, hlabels, ← emit_resolve_eq_error_iff hregisters hlabels hunbound]
      simp only [ok_bind, hcap, hnot, hsize, false_and, reduceCtorEq, and_false, true_and, false_or]
      cases (p.resolve registers labels).emit <;> simp

theorem exists_assemble_eq_ok_iff (hunbound : ∀ i ∈ p, i.Unbound) :
    (∃ a, p.assemble = .ok a) ↔
      p.userRegisters.length ≤ registerCapacity ∧ p.size ≤ maxOffset ∧
        ∀ i ∈ p, ∀ l, i.targets l = true → p.Declares l := by
  constructor
  · rintro ⟨a, ha⟩
    obtain ⟨hregisters, hlabels, hprogram, himage⟩ := assemble_eq_ok_iff.1 ha
    refine ⟨(allocate_eq_ok_iff.1 hregisters).1, layout_eq_ok_iff.1 ⟨_, hlabels⟩, ?_⟩
    intro i hi
    refine (encode_resolve_eq_ok_iff hregisters hlabels hi (hunbound i hi)).1 ?_
    rw [hprogram] at himage
    exact exists_encode_of_mem himage (List.mem_map_of_mem hi)
  · rintro ⟨hcap, hsize, hdeclares⟩
    cases h : p.assemble with
    | ok a => exact ⟨a, rfl⟩
    | error e =>
      -- each of the three ways to fail is excluded by one of the three conditions
      rcases (assemble_eq_error_iff hunbound).1 h with
        ⟨hlt, -⟩ | ⟨-, s, hs, -⟩ | ⟨-, -, name, ⟨before, i, after, rfl, htargets, hnot, -⟩, -⟩
      · omega
      · obtain ⟨hlt, k, rfl⟩ := hs.1
        have := p.size_take_le k
        omega
      · exact absurd (hdeclares i (by simp) name htargets) hnot

end Program

/-! ### The outcome of a source -/

/-- A source is assembled as its program is, unless rejected lines stop it before. -/
theorem assemble_source_eq (source : String) (keepGoing : Bool) :
    assemble source keepGoing =
      if (compile source).errors ≠ [] ∧ keepGoing = false then
        .error (.rejectedLines (compile source).errors)
      else Assembly.image <$> (compile source).program.assemble := by
  rw [assemble, Compilation.selected, Compilation.accepted, Compilation.hasErrors]
  cases keepGoing with
  | true => simp [Functor.map, Except.map, bind, Except.bind, pure, Except.pure]
  | false =>
    by_cases herrors : (compile source).errors = []
    · simp [herrors, Functor.map, Except.map, bind, Except.bind, pure, Except.pure]
    · simp [herrors]

/-- An image comes with the assembly that it is part of. -/
theorem exists_assembly_of_assemble {source : String} {keepGoing : Bool} {image : List UInt8}
    (h : assemble source keepGoing = .ok image) :
    ∃ a, (compile source).program.assemble = .ok a ∧ a.image = image := by
  rw [assemble_source_eq] at h
  split at h
  · cases h
  · exact map_eq_ok_iff.1 h

/-- An operand is written as its name, behind at most one mark. -/
theorem RegisterRef.WellFormed.unmarked_written {r : RegisterRef} (h : r.WellFormed) :
    Name.unmarked r.written.toList = r.name.toList := by
  obtain ⟨word, -, -, hword⟩ := Name.isName_iff.1 h
  rw [written, String.toList_append]
  rcases hmode : r.mode with _ | _ | _
  · rw [hword]
    rfl
  · rfl
  · rfl

/-- A label is never written like a register operand. -/
theorem RegisterRef.written_ne_of_isLabel {r : RegisterRef} {name : String} (hr : r.WellFormed)
    (hname : Name.isLabel name.toList = true) : r.written ≠ name := by
  rintro rfl
  have hunmarked : r.name.toList = r.written.toList :=
    hr.unmarked_written.symm.trans (Name.unmarked_of_isLabel hname)
  rw [← hunmarked] at hname
  exact Bool.false_ne_true ((Name.isRegister_eq_false_of_isLabel hname).symm.trans hr)

/-- **The outcome of assembling a source**, decided by its compilation alone. The conditions are
tried in the order in which they stand here, and the first that holds decides: rejected lines,
registers, size, labels. An undeclared label is reported by the name that the first jump to one
gives, which is never a register. -/
theorem assemble_outcome (source : String) (keepGoing : Bool) :
    let c : Compilation := compile source
    let p : Program := c.program
    let n : Nat := ((p.registers.map (·.name)).toFinset.filter (fixedNumber? · = none)).card
    let stopped := c.errors ≠ [] ∧ keepGoing = false
    (∀ errors, assemble source keepGoing = .error (.rejectedLines errors) ↔
      stopped ∧ errors = c.errors) ∧
    (∀ count, assemble source keepGoing = .error (.tooManyRegisters count) ↔
      ¬ stopped ∧ 107 < n ∧ count = n) ∧
    (∀ size, assemble source keepGoing = .error (.programTooLarge size) ↔
      ¬ stopped ∧ n ≤ 107 ∧ 65535 < p.size ∧ IsLeast p.overflows size) ∧
    (∀ name, assemble source keepGoing = .error (.unresolved name) ↔
      ¬ stopped ∧ n ≤ 107 ∧ p.size ≤ 65535 ∧ p.FirstUndeclared name) ∧
    ((∃ image, assemble source keepGoing = .ok image) ↔
      ¬ stopped ∧ n ≤ 107 ∧ p.size ≤ 65535 ∧
        ∀ i ∈ p, ∀ l, i.targets l = true → p.Declares l) ∧
    (∀ image, assemble source keepGoing = .ok image → image.length = p.size) ∧
    (∀ name, p.FirstUndeclared name → ∀ r ∈ p.registers, r.written ≠ name) ∧
    ∀ count, (AsmError.tooManyRegisters count).message =
      s!"Too many registers: {count} user registers, capacity is {107}." := by
  intro c p n stopped
  have hunbound : ∀ i ∈ p, i.Unbound := fun i hi ↦ unbound_of_mem_compile hi
  have hn : p.userRegisters.length = n := p.length_userRegisters
  have hcap : registerCapacity = 107 := rfl
  have hmax : maxOffset = 65535 := rfl
  have hoverflow : ∀ s, IsLeast p.overflows s → 65535 < p.size := by
    rintro s ⟨⟨hlt, k, rfl⟩, -⟩
    have := p.size_take_le k
    omega
  -- once the source is not stopped, its errors are those of the program
  have herror : ¬ stopped → ∀ e, assemble source keepGoing = .error e ↔ p.assemble = .error e := by
    intro hgo e
    rw [assemble_source_eq, if_neg hgo, map_eq_error_iff]
  have hstop : stopped → assemble source keepGoing = .error (.rejectedLines c.errors) := by
    intro hstop
    rw [assemble_source_eq, if_pos hstop]
  have hok : ¬ stopped → ((∃ image, assemble source keepGoing = .ok image) ↔
      ∃ a, p.assemble = .ok a) := by
    intro hgo
    rw [assemble_source_eq, if_neg hgo]
    simp [map_eq_ok_iff, p, c]
  refine ⟨?_, ?_, ?_, ?_, ?_, ?_, ?_, ?_⟩
  · intro errors
    by_cases hs : stopped
    · simp [hstop hs, hs, eq_comm]
    · simp [herror hs, Program.assemble_eq_error_iff hunbound, hs]
  · intro count
    by_cases hs : stopped
    · simp [hstop hs, hs]
    · simp [herror hs, Program.assemble_eq_error_iff hunbound, hs, hn, hcap]
  · intro size
    by_cases hs : stopped
    · simp [hstop hs, hs]
    · simp only [herror hs, Program.assemble_eq_error_iff hunbound, hs, hn, hcap, reduceCtorEq]
      simp [and_iff_right_of_imp (hoverflow size)]
  · intro name
    by_cases hs : stopped
    · simp [hstop hs, hs]
    · simp [herror hs, Program.assemble_eq_error_iff hunbound, hs, hn, hcap, hmax]
  · by_cases hs : stopped
    · simp [hstop hs, hs]
    · rw [hok hs, Program.exists_assemble_eq_ok_iff hunbound, hn, hcap, hmax]
      simp [hs]
  · intro image himage
    obtain ⟨a, ha, rfl⟩ := exists_assembly_of_assemble himage
    obtain ⟨-, -, hprogram, hemit⟩ := Program.assemble_eq_ok_iff.1 ha
    rw [Program.length_of_emit hemit, hprogram, Program.size_resolve]
  · rintro name ⟨before, i, after, heq, htargets, -, -⟩ r hr
    obtain ⟨j, hj, hr⟩ := List.mem_flatMap.1 hr
    have hi : i ∈ p := by rw [heq]; simp
    refine RegisterRef.written_ne_of_isLabel ((wellFormed_of_mem_compile hj).registers hr) ?_
    exact (wellFormed_of_mem_compile hi).targets htargets
  · intro count
    rfl

end TileAsm
