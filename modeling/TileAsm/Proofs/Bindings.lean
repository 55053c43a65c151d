import TileAsm.Proofs.Assembly

/-!
# Calling the passes again and again

The two passes that bind the operands of a program can be called in any order and any number of
times. What a pass finds out depends on a program without its values (`allocate_unbind`,
`layout_unbind`), and a pass changes nothing but values (`unbind_bind`). So every call finds the
tables of the program that the first one was given, and all that a sequence of calls does is to bind
by these two tables (`callAll_eq`).

As changes of a program the passes commute (`bind_comm`), and a pass that was called has nothing
left to do (`bind_foldl_of_mem`). A program on which both were called is thus a fixed point of both,
which leaves one program only: the one that `Program.resolve` gives (`foldl_bind_eq_resolve`).

What a program was bound to before shows in the end only where nothing is written, which is at jumps
to undeclared labels. Without these a resolved program is that of the program without its values
(`resolve_unbind`).
-/

namespace TileAsm

/-! ### Forgetting values -/

/-- The operand without its value. -/
def RegisterRef.unbind (r : RegisterRef) : RegisterRef := { r with value := none }

/-- The operand without its value. -/
def LabelRef.unbind (t : LabelRef) : LabelRef := { t with value := none }

/-- The instruction without the values of its operands. -/
def Instruction.unbind (i : Instruction) : Instruction :=
  (i.mapRegisters RegisterRef.unbind).mapTarget LabelRef.unbind

/-- The program without the values of its operands. Two programs **differ only in values** if they
are the same without them. -/
def Program.unbind (p : Program) : Program := p.map Instruction.unbind

namespace Instruction

/-- Replacing values makes no difference without values. -/
theorem unbind_mapRegisters {f : RegisterRef → RegisterRef} (h : ∀ r, (f r).unbind = r.unbind)
    (i : Instruction) : (i.mapRegisters f).unbind = i.unbind := by
  rw [unbind, mapRegisters_mapRegisters, show RegisterRef.unbind ∘ f = RegisterRef.unbind from
    funext h]
  rfl

theorem unbind_mapTarget {g : LabelRef → LabelRef} (h : ∀ t, (g t).unbind = t.unbind)
    (i : Instruction) : (i.mapTarget g).unbind = i.unbind := by
  rw [unbind, ← mapTarget_mapRegisters, mapTarget_mapTarget,
    show LabelRef.unbind ∘ g = LabelRef.unbind from funext h]
  rfl

/-- A jump goes to a name, not to a value. -/
theorem targets_unbind (i : Instruction) (label : String) :
    i.unbind.targets label = i.targets label := by
  rw [targets, unbind, target?_mapTarget, target?_mapRegisters, Option.any_map]
  rfl

/-- Binding that reaches every operand of an instruction writes over all that was there. -/
theorem resolve_unbind {registers : RegisterTable} {labels : LabelTable} {i : Instruction}
    (hregisters : ∀ r ∈ i.registers, ∃ number, registers.get? r.name = some number)
    (hlabels : ∀ t, i.target? = some t → ∃ offset, labels[t.label]? = some offset) :
    i.unbind.resolve registers labels = i.resolve registers labels := by
  rw [resolve, resolve, unbind, ← mapTarget_mapRegisters, mapTarget_mapTarget,
    mapRegisters_mapRegisters]
  have hr :
      i.mapRegisters ((fun r ↦ (registers.get? r.name).elim r r.bindTo) ∘ RegisterRef.unbind) =
        i.mapRegisters fun r ↦ (registers.get? r.name).elim r r.bindTo := by
    refine mapRegisters_congr fun r hr ↦ ?_
    obtain ⟨number, hnumber⟩ := hregisters r hr
    simp [RegisterRef.unbind, RegisterRef.bindTo, hnumber]
  rw [hr]
  refine mapTarget_congr fun t ht ↦ ?_
  obtain ⟨offset, hoffset⟩ := hlabels t (by rwa [target?_mapRegisters] at ht)
  simp [LabelRef.unbind, LabelRef.bindTo, hoffset]

end Instruction

namespace Program

variable {p q : Program} {registers : RegisterTable} {labels : LabelTable}

/-- A round of binding changes nothing but values. -/
@[simp] theorem unbind_bindRegisters (p : Program) (number? : String → Option UInt8) :
    (p.bindRegisters number?).unbind = p.unbind := by
  rw [unbind, bindRegisters_eq, List.map_map]
  refine List.map_congr_left fun i _ ↦ Instruction.unbind_mapRegisters (fun r ↦ ?_) i
  cases number? r.name <;> rfl

@[simp] theorem unbind_bindLabels (p : Program) (offset? : String → Option UInt16) :
    (p.bindLabels offset?).unbind = p.unbind := by
  rw [unbind, bindLabels_eq, List.map_map]
  refine List.map_congr_left fun i _ ↦ Instruction.unbind_mapTarget (fun t ↦ ?_) i
  cases offset? t.label <;> rfl

/-- A program is numbered by the names of its operands. -/
theorem allocate_unbind (p : Program) : p.unbind.allocate = p.allocate := by
  refine allocate_congr ?_
  rw [unbind, registers, registers, List.flatMap_map, List.map_flatMap, List.map_flatMap]
  simp [Instruction.unbind, RegisterRef.unbind, Function.comp_def]

/-- A program is laid out by the sizes of its instructions and the names of its labels. -/
theorem layout_unbind (p : Program) : p.unbind.layout = p.layout :=
  layoutFrom_map (by simp [Instruction.unbind]) (fun _ _ i ↦ by cases i <;> rfl) _ _ _

/-- Programs that differ only in values have the same registers. -/
theorem allocate_eq_of_unbind_eq (h : q.unbind = p.unbind) : q.allocate = p.allocate := by
  rw [← allocate_unbind q, h, allocate_unbind]

/-- Programs that differ only in values have the same labels. -/
theorem layout_eq_of_unbind_eq (h : q.unbind = p.unbind) : q.layout = p.layout := by
  rw [← layout_unbind q, h, layout_unbind]

/-- Resolving makes earlier values void, if every jump has a place to go to. -/
theorem resolve_unbind (hregisters : p.allocate = .ok registers)
    (htargets : ∀ i ∈ p, ∀ l, i.targets l = true → ∃ offset, labels[l]? = some offset) :
    p.unbind.resolve registers labels = p.resolve registers labels := by
  rw [resolve, resolve, unbind, List.map_map]
  refine List.map_congr_left fun i hi ↦ Instruction.resolve_unbind ?_ ?_
  · exact fun r hr ↦ exists_get?_of_allocate hregisters (List.mem_flatMap.2 ⟨i, hi, hr⟩)
  · exact fun t ht ↦ htargets i hi t.label (targets_iff.2 ⟨t, ht, rfl⟩)

/-- Whatever is declared has an offset. -/
theorem exists_getElem?_of_declares (hlabels : p.layout = .ok labels) {name : String}
    (h : p.Declares name) : ∃ offset, labels[name]? = some offset := by
  rw [getElem?_of_layout hlabels, ← Option.isSome_iff_exists, Option.isSome_map,
    Option.isSome_iff_ne_none, Ne, lastOffset?_eq_none_iff]
  exact not_not_intro h

/-- Programs that differ only in values are resolved to the same, unless a jump goes nowhere. -/
theorem resolve_eq_of_unbind_eq (hregisters : p.allocate = .ok registers)
    (hlabels : p.layout = .ok labels)
    (hdeclares : ∀ i ∈ p, ∀ l, i.targets l = true → p.Declares l) (h : q.unbind = p.unbind) :
    q.resolve registers labels = p.resolve registers labels := by
  have hoffsets : ∀ i ∈ p, ∀ l, i.targets l = true → ∃ offset, labels[l]? = some offset :=
    fun i hi l hl ↦ exists_getElem?_of_declares hlabels (hdeclares i hi l hl)
  -- the jumps of `q` are those of `p`, since unbinding keeps where an instruction jumps to
  have hoffsets' : ∀ i ∈ q, ∀ l, i.targets l = true → ∃ offset, labels[l]? = some offset := by
    intro i hi l hl
    have hmem : i.unbind ∈ p.unbind := h ▸ List.mem_map_of_mem hi
    obtain ⟨j, hj, hij⟩ := List.mem_map.1 hmem
    rw [← i.targets_unbind, ← hij, j.targets_unbind] at hl
    exact hoffsets j hj l hl
  rw [← resolve_unbind ((allocate_eq_of_unbind_eq h).trans hregisters) hoffsets', h,
    resolve_unbind hregisters hoffsets]

/-! ### Binding twice -/

theorem bindLabels_bindLabels (p : Program) (offset? : String → Option UInt16) :
    (p.bindLabels offset?).bindLabels offset? = p.bindLabels offset? := by
  rw [bindLabels_eq, bindLabels_eq, List.map_map]
  refine List.map_congr_left fun i _ ↦ ?_
  rw [Function.comp_apply, Instruction.mapTarget_mapTarget]
  congr 1
  funext t
  rcases hoffset : offset? t.label with _ | offset <;> simp [LabelRef.bindTo, hoffset]

theorem bindRegisters_bindLabels (p : Program) (number? : String → Option UInt8)
    (offset? : String → Option UInt16) :
    (p.bindLabels offset?).bindRegisters number? =
      (p.bindRegisters number?).bindLabels offset? := by
  simp [bindLabels_eq, bindRegisters_eq, Function.comp_def, Instruction.mapTarget_mapRegisters]

end Program

/-! ### Calls -/

/-- The passes that bind the operands of a program. -/
inductive Pass where
  /-- Numbers the registers and binds the register operands. -/
  | registers
  /-- Lays out the labels and binds the label operands. -/
  | labels
  deriving DecidableEq, Repr

namespace Pass

/-- What a call of a pass returns. -/
inductive Answer where
  /-- The registers, or why they cannot be numbered. -/
  | registers (result : Except AsmError RegisterTable)
  /-- The labels, or why they cannot be laid out. -/
  | labels (result : Except AsmError LabelTable)

/-- The answer of a call that succeeds with one of two given tables. -/
def success (registers : RegisterTable) (labels : LabelTable) : Pass → Answer
  | .registers => .registers (.ok registers)
  | .labels => .labels (.ok labels)

/-- What a call that succeeds does to the operands. -/
def bind (registers : RegisterTable) (labels : LabelTable) (p : Program) : Pass → Program
  | .registers => p.bindRegisters registers.get?
  | .labels => p.bindLabels (labels[·]?)

end Pass

namespace Program

/-- Calls a pass, which answers and leaves a program behind. -/
def call (p : Program) : Pass → Pass.Answer × Program
  | .registers =>
    let (result, p) := p.resolveRegisters
    (.registers result, p)
  | .labels =>
    let (result, p) := p.resolveLabels
    (.labels result, p)

/-- Calls passes one after the other, each on the program that the one before has left. -/
def callAll (p : Program) : List Pass → List Pass.Answer × Program
  | [] => ([], p)
  | pass :: passes =>
    let (answer, p) := p.call pass
    let (answers, p) := callAll p passes
    (answer :: answers, p)

end Program

section Calls

variable {p q : Program} {registers : RegisterTable} {labels : LabelTable}

namespace Pass

@[simp] theorem unbind_bind (p : Program) (pass : Pass) :
    (bind registers labels p pass).unbind = p.unbind := by
  match pass with
  | .registers => exact p.unbind_bindRegisters _
  | .labels => exact p.unbind_bindLabels _

/-- Registers and labels are different operands, so the passes do not get into each other's way. -/
theorem bind_comm (p : Program) (pass other : Pass) :
    bind registers labels (bind registers labels p pass) other =
      bind registers labels (bind registers labels p other) pass := by
  match pass, other with
  | .registers, .registers | .labels, .labels => rfl
  | .registers, .labels => exact (p.bindRegisters_bindLabels _ _).symm
  | .labels, .registers => exact p.bindRegisters_bindLabels _ _

/-- A pass that is called twice finds its own values. -/
theorem bind_bind (p : Program) (pass : Pass) :
    bind registers labels (bind registers labels p pass) pass = bind registers labels p pass := by
  match pass with
  | .registers => exact p.bindRegisters_bindRegisters fun _ h ↦ h
  | .labels => exact p.bindLabels_bindLabels _

theorem resolve_bind (p : Program) (pass : Pass) :
    (bind registers labels p pass).resolve registers labels = p.resolve registers labels := by
  have hresolve : ∀ q : Program, q.resolve registers labels =
      bind registers labels (bind registers labels q .registers) .labels := fun _ ↦
    Program.bindLabels_bindRegisters.symm
  rw [hresolve, hresolve]
  match pass with
  | .registers => rw [bind_bind]
  | .labels => rw [bind_comm p, bind_bind]

/-- A pass can as well be called later. -/
theorem foldl_bind_bind (p : Program) (pass : Pass) (passes : List Pass) :
    passes.foldl (bind registers labels) (bind registers labels p pass) =
      bind registers labels (passes.foldl (bind registers labels) p) pass := by
  induction passes generalizing p with
  | nil => rfl
  | cons other passes ih => rw [List.foldl_cons, List.foldl_cons, bind_comm, ih]

/-- A pass that was called has nothing left to do, whatever was called after it. -/
theorem bind_foldl_of_mem {pass : Pass} {passes : List Pass} (h : pass ∈ passes) (p : Program) :
    bind registers labels (passes.foldl (bind registers labels) p) pass =
      passes.foldl (bind registers labels) p := by
  induction passes generalizing p with
  | nil => cases h
  | cons first passes ih =>
    rw [List.foldl_cons]
    rcases List.mem_cons.1 h with rfl | h
    · rw [← foldl_bind_bind, bind_bind]
    · exact ih h _

theorem resolve_foldl_bind (p : Program) (passes : List Pass) :
    (passes.foldl (bind registers labels) p).resolve registers labels =
      p.resolve registers labels := by
  induction passes generalizing p with
  | nil => rfl
  | cons pass passes ih => rw [List.foldl_cons, ih, resolve_bind]

/-- Both passes together resolve a program, in whatever order and however often they are called. -/
theorem foldl_bind_eq_resolve {passes : List Pass} (hregisters : .registers ∈ passes)
    (hlabels : .labels ∈ passes) (p : Program) :
    passes.foldl (bind registers labels) p = p.resolve registers labels :=
  calc passes.foldl (bind registers labels) p
    _ = bind registers labels (bind registers labels (passes.foldl (bind registers labels) p)
          .registers) .labels := by
        rw [bind_foldl_of_mem hregisters, bind_foldl_of_mem hlabels]
    _ = (passes.foldl (bind registers labels) p).resolve registers labels :=
        Program.bindLabels_bindRegisters
    _ = p.resolve registers labels := resolve_foldl_bind p passes

end Pass

namespace Program

/-- A call succeeds with the table of the program and binds by it. -/
theorem call_eq (hregisters : p.allocate = .ok registers) (hlabels : p.layout = .ok labels)
    (pass : Pass) :
    p.call pass = (pass.success registers labels, pass.bind registers labels p) := by
  match pass with
  | .registers =>
    rw [call, resolveRegisters_eq, hregisters]
    rfl
  | .labels =>
    rw [call, resolveLabels, hlabels]
    rfl

/-- All calls find the same two tables, since none of them changes more than values. -/
theorem callAll_eq (hregisters : p.allocate = .ok registers) (hlabels : p.layout = .ok labels)
    (passes : List Pass) :
    p.callAll passes =
      (passes.map (Pass.success registers labels),
        passes.foldl (Pass.bind registers labels) p) := by
  induction passes generalizing p with
  | nil => rfl
  | cons pass passes ih =>
    have hunbind : (pass.bind registers labels p).unbind = p.unbind := Pass.unbind_bind p pass
    rw [callAll, call_eq hregisters hlabels]
    dsimp only
    rw [ih ((allocate_eq_of_unbind_eq hunbind).trans hregisters)
      ((layout_eq_of_unbind_eq hunbind).trans hlabels)]
    rfl

end Program

/-- **The passes are independent, repeatable and without a history.** If the registers of a program
can be numbered and its labels laid out, then each call in a sequence of calls of both passes
succeeds with the table of the program, and the sequence leaves the resolved program behind. If
every jump goes to a declared label, this is so for each program that differs only in values. -/
theorem resolution_calls_agree (hregisters : p.allocate = .ok registers)
    (hlabels : p.layout = .ok labels) :
    (∀ passes, .registers ∈ passes → .labels ∈ passes →
      p.callAll passes =
        (passes.map (Pass.success registers labels), p.resolve registers labels)) ∧
    ((∀ i ∈ p, ∀ l, i.targets l = true → p.Declares l) →
      ∀ q : Program, q.unbind = p.unbind → ∀ passes, .registers ∈ passes → .labels ∈ passes →
        q.callAll passes =
          (passes.map (Pass.success registers labels), p.resolve registers labels)) := by
  constructor
  · intro passes hr hl
    rw [Program.callAll_eq hregisters hlabels, Pass.foldl_bind_eq_resolve hr hl]
  · intro hdeclares q hq passes hr hl
    rw [Program.callAll_eq ((Program.allocate_eq_of_unbind_eq hq).trans hregisters)
      ((Program.layout_eq_of_unbind_eq hq).trans hlabels), Pass.foldl_bind_eq_resolve hr hl,
      Program.resolve_eq_of_unbind_eq hregisters hlabels hdeclares hq]

/-- A jump and two uses of a register, bound to other values before and not bound at all. -/
theorem resolution_calls_of_stale_values :
    let stale : Program := [.label "la" [], .pair .move (.register ⟨"rx", .indirect, some 3⟩)
      ⟨"rx", .direct, some 90⟩, .address .jump ⟨"la", some 700⟩]
    let fresh : Program := [.label "la" [], .pair .move (.register ⟨"rx", .indirect, none⟩)
      ⟨"rx", .direct, none⟩, .address .jump ⟨"la", none⟩]
    let registers : RegisterTable := { user := ["rx"] }
    let labels : LabelTable := (∅ : LabelTable).insert "la" 0
    fresh.allocate = .ok registers ∧ fresh.layout = .ok labels ∧
      fresh.callAll [.registers, .labels] =
        ([.registers (.ok registers), .labels (.ok labels)], fresh.resolve registers labels) ∧
      stale.callAll [.labels, .registers, .labels] =
        ([.labels (.ok labels), .registers (.ok registers), .labels (.ok labels)],
          fresh.resolve registers labels) := by
  intro stale fresh registers labels
  have hregisters : fresh.allocate = .ok registers := by decide
  have hlabels : fresh.layout = .ok labels := rfl
  have hdeclares : ∀ i ∈ fresh, ∀ l, i.targets l = true → fresh.Declares l := by
    intro i hi l hl
    obtain ⟨t, ht, rfl⟩ := Program.targets_iff.1 hl
    simp only [fresh, List.mem_cons, List.not_mem_nil, or_false] at hi
    rcases hi with rfl | rfl | rfl <;> cases ht
    exact ⟨[], by simp [fresh]⟩
  obtain ⟨hown, hother⟩ := resolution_calls_agree hregisters hlabels
  exact ⟨hregisters, hlabels, hown _ (by decide) (by decide),
    hother hdeclares stale rfl _ (by decide) (by decide)⟩

end Calls

end TileAsm
