import TileAsm.Program

/-!
# Binding name by name

The operands of an instruction are bound by their names: for each name that is given a value,
whatever operand has this name takes it. An instruction can name a register twice, and is then
bound twice. **A round of binding is one replacement of operands** all the same: each operand takes
the value of its own name, or stays as it is (`Instruction.bindRegisters_eq`,
`Instruction.bindTarget_eq`).

For registers this is an induction on the names. When some of them have been passed, the operands
with these names are bound and all others are as they were (`Instruction.foldl_bindNamed`).
-/

namespace TileAsm

namespace Instruction

variable {i : Instruction}

/-! ### Replacing operands -/

theorem mapRegisters_mapRegisters (f g : RegisterRef → RegisterRef) (i : Instruction) :
    (i.mapRegisters f).mapRegisters g = i.mapRegisters (g ∘ f) := by
  match i with
  | pair _ (.literal _) _ | pair _ (.register _) _ => rfl
  | label _ _ | bare _ | register _ _ | address _ _ | tile _ _ | text _ _ | selector _ _ => rfl

theorem mapTarget_mapTarget (f g : LabelRef → LabelRef) (i : Instruction) :
    (i.mapTarget f).mapTarget g = i.mapTarget (g ∘ f) := by
  cases i <;> rfl

/-- Registers and labels are replaced independently. -/
theorem mapTarget_mapRegisters (f : RegisterRef → RegisterRef) (g : LabelRef → LabelRef)
    (i : Instruction) : (i.mapRegisters f).mapTarget g = (i.mapTarget g).mapRegisters f := by
  cases i <;> rfl

/-- Only what a function does to the operands of an instruction counts. -/
theorem mapRegisters_congr {f g : RegisterRef → RegisterRef} (h : ∀ r ∈ i.registers, f r = g r) :
    i.mapRegisters f = i.mapRegisters g := by
  match i with
  | register op r => rw [mapRegisters, mapRegisters, h r (by simp [registers])]
  | pair op (.literal b) dest => rw [mapRegisters, mapRegisters, h dest (by simp [registers])]; rfl
  | pair op (.register r) dest =>
    rw [mapRegisters, mapRegisters, h dest (by simp [registers]), Source.mapRegister,
      h r (by simp [registers, Source.register?])]
    rfl
  | text r bytes => rw [mapRegisters, mapRegisters, h r (by simp [registers])]
  | selector r options => rw [mapRegisters, mapRegisters, h r (by simp [registers])]
  | label name doc | bare op | address op t | tile id rows => rfl

theorem mapTarget_congr {f g : LabelRef → LabelRef} (h : ∀ t, i.target? = some t → f t = g t) :
    i.mapTarget f = i.mapTarget g := by
  match i with
  | address op t => rw [mapTarget, mapTarget, h t rfl]
  | label _ _ | bare _ | register _ _ | pair _ _ _ | tile _ _ | text _ _ | selector _ _ => rfl

/-- A function that leaves the operands alone leaves the instruction alone. -/
theorem mapRegisters_eq_self {f : RegisterRef → RegisterRef} (h : ∀ r ∈ i.registers, f r = r) :
    i.mapRegisters f = i := by
  refine (mapRegisters_congr h).trans ?_
  match i with
  | pair _ (.literal _) _ | pair _ (.register _) _ => rfl
  | label _ _ | bare _ | register _ _ | address _ _ | tile _ _ | text _ _ | selector _ _ => rfl

/-! ### Rounds of binding -/

/-- One name binds the operands that have it. -/
theorem bindNamed_eq (number? : String → Option UInt8) (i : Instruction) (name : String) :
    i.bindNamed number? name =
      i.mapRegisters fun r ↦ if r.name = name then (number? r.name).elim r r.bindTo else r := by
  rw [bindNamed]
  rcases hname : number? name with _ | number
  · refine (mapRegisters_eq_self fun r _ ↦ ?_).symm
    by_cases heq : r.name = name <;> simp [heq, hname]
  · refine mapRegisters_congr fun r _ ↦ ?_
    by_cases heq : r.name = name <;> simp [RegisterRef.bind, heq, hname]

/-- What has become of an instruction when some names have been passed. -/
theorem foldl_bindNamed (number? : String → Option UInt8) (names : List String)
    (i : Instruction) :
    names.foldl (bindNamed number?) i =
      i.mapRegisters fun r ↦ if r.name ∈ names then (number? r.name).elim r r.bindTo else r := by
  induction names generalizing i with
  | nil => exact (mapRegisters_eq_self fun r _ ↦ if_neg List.not_mem_nil).symm
  | cons name names ih =>
    rw [List.foldl_cons, ih, bindNamed_eq, mapRegisters_mapRegisters]
    refine mapRegisters_congr fun r _ ↦ ?_
    by_cases heq : r.name = name
    · -- a name that comes again gives the same value again
      rcases hname : number? name with _ | number <;> simp [heq, hname, RegisterRef.bindTo]
    · simp [heq]

/-- **Each register operand takes the number of its name.** -/
theorem bindRegisters_eq (i : Instruction) (number? : String → Option UInt8) :
    i.bindRegisters number? = i.mapRegisters fun r ↦ (number? r.name).elim r r.bindTo := by
  rw [bindRegisters, foldl_bindNamed]
  exact mapRegisters_congr fun r hr ↦ if_pos (List.mem_map_of_mem hr)

/-- **The label operand takes the offset of its name.** -/
theorem bindTarget_eq (i : Instruction) (offset? : String → Option UInt16) :
    i.bindTarget offset? = i.mapTarget fun t ↦ (offset? t.label).elim t t.bindTo := by
  match i with
  | address op t =>
    rw [bindTarget, target?, mapTarget]
    dsimp only
    rcases offset? t.label with _ | offset
    · rfl
    · exact congrArg (address op) (if_pos rfl)
  | label _ _ | bare _ | register _ _ | pair _ _ _ | tile _ _ | text _ _ | selector _ _ => rfl

end Instruction

namespace Program

/-- A round of binding replaces the register operands of a program. -/
theorem bindRegisters_eq (p : Program) (number? : String → Option UInt8) :
    p.bindRegisters number? =
      p.map (Instruction.mapRegisters fun r ↦ (number? r.name).elim r r.bindTo) :=
  List.map_congr_left fun i _ ↦ i.bindRegisters_eq number?

/-- A round of binding replaces the label operands of a program. -/
theorem bindLabels_eq (p : Program) (offset? : String → Option UInt16) :
    p.bindLabels offset? =
      p.map (Instruction.mapTarget fun t ↦ (offset? t.label).elim t t.bindTo) :=
  List.map_congr_left fun i _ ↦ i.bindTarget_eq offset?

end Program

end TileAsm
