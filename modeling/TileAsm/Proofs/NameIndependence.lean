import TileAsm.Proofs.Renaming

/-!
# Names mean nothing but themselves

A program can be given other names. As long as different registers and different labels stay
different, and the fixed registers stay what they are, the image is the same, and so is an error in
its place, up to the name in it:

```
(p.rename σ τ).run = p.run, with τ applied to the name of an undeclared label
```

Nothing depends on the order of names, although the label table is ordered by them: a table is only
ever asked for a name (`getElem?_of_layout_relabel`). The two kinds of names are independent of each
other, so registers and labels are renamed one after the other (`run_renameRegisters`,
`run_relabel`). For registers the work is done in `Proofs/Renaming`.

`Program.run` is `Program.assemble` with the stage of an error kept beside it (`mapError_run`). The
operands need not be unbound to begin with: whatever a register operand holds is replaced, and
what a jump to an undeclared label holds is the same under another name.
-/

namespace TileAsm

/-! ### Stages -/

/-- The steps in which a program is assembled. -/
inductive Stage where
  /-- Numbering the registers. -/
  | registers
  /-- Laying out the labels. -/
  | labels
  /-- Emitting the image. -/
  | emission
  deriving DecidableEq, Repr

namespace Program

/-- The image of a program, or an error with the stage that it comes from. -/
def run (p : Program) : Except (Stage × AsmError) (List UInt8) := do
  let (table, p) := p.resolveRegisters
  let _ ← table.mapError (Stage.registers, ·)
  let (table, p) := p.resolveLabels
  let _ ← table.mapError (Stage.labels, ·)
  p.emit.mapError (Stage.emission, ·)

/-- A run comes to the same two tables and one substitution as assembling. -/
theorem run_eq (p : Program) :
    p.run = (do
      let registers ← p.allocate.mapError (Stage.registers, ·)
      let labels ← p.layout.mapError (Stage.labels, ·)
      (p.resolve registers labels).emit.mapError (Stage.emission, ·)) := by
  rw [run, resolveRegisters_eq]
  rcases p.allocate with e | registers
  · rfl
  · simp only [resolveLabels, layout_bindRegisters]
    rcases p.layout with e | labels
    · rfl
    · exact congrArg (fun q ↦ (emit q).mapError (Stage.emission, ·)) bindLabels_bindRegisters

/-- Without the stage this is assembling. -/
theorem mapError_run (p : Program) : p.run.mapError Prod.snd = Assembly.image <$> p.assemble := by
  rw [image_assemble, run_eq]
  rcases p.allocate with e | registers
  · rfl
  · rcases p.layout with e | labels
    · rfl
    · show ((p.resolve registers labels).emit.mapError (Stage.emission, ·)).mapError Prod.snd =
        (p.resolve registers labels).emit
      rcases (p.resolve registers labels).emit with e | image <;> rfl

end Program

/-! ### Other names for registers -/

/-- The table with its registers renamed. -/
def RegisterTable.rename (σ : String → String) (t : RegisterTable) : RegisterTable :=
  { user := t.user.map σ }

namespace Program

section Registers

variable {p : Program} {σ : String → String}

/-- A renamed program has the renamed table. -/
theorem allocate_renameRegisters (h : p.IsRenaming σ) :
    (p.renameRegisters σ).allocate = RegisterTable.rename σ <$> p.allocate := by
  simp only [allocate, userRegisters_renameRegisters h, List.length_map]
  split <;> rfl

theorem layout_renameRegisters : (p.renameRegisters σ).layout = p.layout :=
  layoutFrom_map (by simp) (fun _ _ i ↦ by cases i <;> rfl) _ _ _

/-- **Registers can be renamed.** -/
theorem run_renameRegisters (h : p.IsRenaming σ) : (p.renameRegisters σ).run = p.run := by
  rw [run_eq, run_eq, allocate_renameRegisters h, layout_renameRegisters]
  rcases hregisters : p.allocate with e | registers
  · rfl
  · rcases p.layout with e | labels
    · rfl
    · refine congrArg (Except.mapError (Stage.emission, ·)) ?_
      rw [renameRegisters, resolve, resolve, List.map_map]
      refine emit_map_congr fun i hi ↦ ?_
      rcases htarget : i.target? with _ | t
      · refine encode_resolve_renameRegisters h hregisters ?_ hi htarget
        rw [userRegisters_renameRegisters h, ← (allocate_eq_ok_iff.1 hregisters).2]
        rfl
      · obtain ⟨op, rfl⟩ := Instruction.eq_address_of_target? htarget
        rfl

end Registers

end Program

/-! ### Other names for labels -/

/-- The operand with its label renamed. -/
def LabelRef.rename (τ : String → String) (t : LabelRef) : LabelRef :=
  { t with label := τ t.label }

/-- The error with the label in it renamed. -/
def AsmError.relabel (τ : String → String) : AsmError → AsmError
  | unresolved name => unresolved (τ name)
  | e => e

namespace Instruction

/-- The instruction with its label renamed, which it declares or jumps to. -/
def relabel (τ : String → String) : Instruction → Instruction
  | label name doc => label (τ name) doc
  | i => i.mapTarget (LabelRef.rename τ)

/-- The label that an instruction mentions: the one that it declares or jumps to. -/
def labels : Instruction → List String
  | label name _ => [name]
  | address _ t => [t.label]
  | _ => []

variable {τ : String → String}

theorem size_relabel (i : Instruction) : (i.relabel τ).size = i.size := by
  cases i <;> rfl

/-- A renamed label is declared where it was, if no other label has taken its name. -/
theorem declares_relabel {i : Instruction} {name : String}
    (h : ∀ n ∈ i.labels, τ n = τ name → n = name) :
    (i.relabel τ).declares (τ name) = i.declares name := by
  match i with
  | label n doc =>
    show (τ n == τ name) = (n == name)
    rw [Bool.eq_iff_iff, beq_iff_eq, beq_iff_eq]
    exact ⟨h n (by simp [labels]), congrArg τ⟩
  | bare _ | register _ _ | address _ _ | pair _ _ _ | tile _ _ | text _ _ | selector _ _ => rfl

end Instruction

namespace Program

/-- The program with its labels renamed, declarations and jumps alike. -/
def relabel (τ : String → String) (p : Program) : Program := p.map (Instruction.relabel τ)

/-- The labels that a program mentions. -/
def labels (p : Program) : List String := p.flatMap Instruction.labels

/-- A renaming that keeps the labels of a program apart. -/
def IsRelabelling (p : Program) (τ : String → String) : Prop :=
  ∀ n ∈ p.labels, ∀ m ∈ p.labels, τ n = τ m → n = m

section Labels

variable {p : Program} {τ : String → String}

theorem allocate_relabel : (p.relabel τ).allocate = p.allocate :=
  allocate_map (fun i ↦ by cases i <;> rfl) p

theorem size_relabel : (p.relabel τ).size = p.size :=
  size_map_of_size_eq Instruction.size_relabel p

theorem overflows_relabel : (p.relabel τ).overflows = p.overflows := by
  have htake : ∀ k, size ((p.relabel τ).take k) = size (p.take k) := fun k ↦ by
    rw [relabel, ← List.map_take]
    exact size_relabel
  simp only [overflows, htake]

/-- A renamed label has its last declaration where it had it. -/
theorem lastOffset?_relabel {name : String} (h : ∀ n ∈ p.labels, τ n = τ name → n = name) :
    (p.relabel τ).lastOffset? (τ name) = p.lastOffset? name := by
  induction p with
  | nil => rfl
  | cons i p ih =>
    have hi := Instruction.declares_relabel fun n hn ↦ h n (List.mem_append_left _ hn)
    have ih := ih fun n hn ↦ h n (List.mem_append_right _ hn)
    show ((lastOffset? (τ name) (relabel τ p)).map _).or _ = _
    rw [ih, hi, Instruction.size_relabel, lastOffset?]

/-- A renamed label has the offset that it had. -/
theorem getElem?_of_layout_relabel (h : p.IsRelabelling τ) {labels labels' : LabelTable}
    (hlabels : p.layout = .ok labels) (hlabels' : (p.relabel τ).layout = .ok labels')
    {name : String} (hname : name ∈ p.labels) : labels'[τ name]? = labels[name]? := by
  rw [getElem?_of_layout hlabels', getElem?_of_layout hlabels,
    lastOffset?_relabel fun n hn ↦ h n hn name hname]

/-- One instruction under another label: the same bytes, or the same error under that label. -/
theorem encode_resolve_relabel (h : p.IsRelabelling τ) {registers : RegisterTable}
    {labels labels' : LabelTable} (hregisters : p.allocate = .ok registers)
    (hlabels : p.layout = .ok labels) (hlabels' : (p.relabel τ).layout = .ok labels')
    {i : Instruction} (hi : i ∈ p) :
    ((i.relabel τ).resolve registers labels').encode =
      (i.resolve registers labels).encode.mapError (AsmError.relabel τ) := by
  rcases htarget : i.target? with _ | t
  · have hsame : ((i.relabel τ).resolve registers labels').encode =
        (i.resolve registers labels).encode := by
      cases i with
      | address op t => exact absurd htarget (by simp [Instruction.target?])
      | _ => rfl
    -- with its registers bound, an instruction that does not jump has its bytes
    rcases hencode : (i.resolve registers labels).encode with e | bytes
    · obtain ⟨t, ht, -⟩ := (Instruction.encode_eq_error_iff_of_bound fun _ ↦
        value_of_mem_registers_resolve hregisters hi).1 hencode
      rw [Instruction.resolve, Instruction.target?_mapTarget, Instruction.target?_mapRegisters,
        htarget] at ht
      exact absurd ht (by simp)
    · rw [hsame, hencode]
      rfl
  · obtain ⟨op, rfl⟩ := Instruction.eq_address_of_target? htarget
    have hget : labels'[τ t.label]? = labels[t.label]? :=
      getElem?_of_layout_relabel h hlabels hlabels'
        (List.mem_flatMap.2 ⟨_, hi, by simp [Instruction.labels]⟩)
    show (Instruction.address op ((labels'[τ t.label]?).elim (t.rename τ) _)).encode =
      (Instruction.address op ((labels[t.label]?).elim t _)).encode.mapError _
    rw [hget]
    rcases labels[t.label]? with _ | a
    · rw [Option.elim_none, Option.elim_none, Instruction.encode, Instruction.encode,
        LabelRef.resolved, LabelRef.resolved]
      rcases t with ⟨name, _ | a⟩ <;> rfl
    · rfl

/-- An image depends on the bytes of the instructions, and an error on the first error. -/
theorem emit_map_mapError {f g : Instruction → Instruction} {rename : AsmError → AsmError}
    (h : ∀ i ∈ p, (f i).encode = (g i).encode.mapError rename) :
    emit (p.map f) = (emit (p.map g)).mapError rename := by
  induction p with
  | nil => rfl
  | cons i p ih =>
    rw [List.map_cons, List.map_cons, emit_cons, emit_cons, h i (by simp),
      ih fun j hj ↦ h j (by simp [hj])]
    rcases (g i).encode with e | bytes
    · rfl
    · rcases emit (p.map g) with e | rest <;> rfl

/-- **Labels can be renamed**, and an error that names one is renamed with them. -/
theorem run_relabel (h : p.IsRelabelling τ) :
    (p.relabel τ).run = p.run.mapError fun e ↦ (e.1, e.2.relabel τ) := by
  rw [run_eq, run_eq, allocate_relabel]
  rcases hregisters : p.allocate with e | registers
  · obtain ⟨-, rfl⟩ := allocate_eq_error_iff.1 hregisters
    rfl
  · rcases hlabels : p.layout with e | labels
    · obtain ⟨s, hs, rfl⟩ := layout_eq_error_iff.1 hlabels
      have hlabels' : (p.relabel τ).layout = .error (.programTooLarge s) :=
        layout_eq_error_iff.2 ⟨s, by rwa [overflows_relabel], rfl⟩
      rw [hlabels']
      rfl
    · obtain ⟨labels', hlabels'⟩ : ∃ labels', (p.relabel τ).layout = .ok labels' := by
        rw [layout_eq_ok_iff, size_relabel]
        exact layout_eq_ok_iff.1 ⟨labels, hlabels⟩
      have hemit : ((p.relabel τ).resolve registers labels').emit =
          (p.resolve registers labels).emit.mapError (AsmError.relabel τ) := by
        rw [resolve, relabel, List.map_map]
        exact emit_map_mapError fun i hi ↦
          encode_resolve_relabel h hregisters hlabels hlabels' hi
      rw [hlabels']
      show ((p.relabel τ).resolve registers labels').emit.mapError _ =
        ((p.resolve registers labels).emit.mapError _).mapError _
      rw [hemit]
      rcases (p.resolve registers labels).emit with e | image <;> rfl

end Labels

/-! ### Both at once -/

/-- The program with other names for its registers and for its labels. -/
def rename (σ τ : String → String) (p : Program) : Program := (p.renameRegisters σ).relabel τ

theorem labels_renameRegisters (σ : String → String) (p : Program) :
    (p.renameRegisters σ).labels = p.labels := by
  rw [renameRegisters, labels, List.flatMap_map]
  congr 1
  funext i
  cases i <;> rfl

/-- **Names carry no meaning.** Under other names a program has the same image, or fails at the same
stage with the same error, where an undeclared label has its other name. -/
theorem run_rename {p : Program} {σ τ : String → String} (hσ : p.IsRenaming σ)
    (hτ : p.IsRelabelling τ) :
    (p.rename σ τ).run = p.run.mapError fun e ↦ (e.1, e.2.relabel τ) := by
  have hτ' : (p.renameRegisters σ).IsRelabelling τ := by
    rwa [IsRelabelling, labels_renameRegisters]
  rw [rename, run_relabel hτ', run_renameRegisters hσ]

/-- Two registers and two labels that swap their names. The second jump is the one that fails, under
either name. -/
theorem run_rename_of_swapped_names :
    let σ := fun name ↦ if name = "ra" then "rb" else if name = "rb" then "ra" else name
    let τ := fun name ↦ if name = "la" then "lb" else if name = "lb" then "la" else name
    let p : Program := [.pair .move (.register ⟨"rb", .indirect, none⟩) ⟨"r0", .direct, none⟩,
      .label "lb" [], .register .invi ⟨"ra", .direct, none⟩, .address .jump ⟨"lb", none⟩]
    let failing : Program := p ++ [.address .jump ⟨"la", none⟩]
    let image : List UInt8 := [0x09, 0x85, 0x00, 0x0f, 0x06, 0x10, 0x00, 0x03]
    (p.IsRenaming σ ∧ p.IsRelabelling τ ∧ p.run = .ok image ∧ (p.rename σ τ).run = .ok image) ∧
    failing.IsRenaming σ ∧ failing.IsRelabelling τ ∧
      failing.run = .error (.emission, .unresolved "la") ∧
      (failing.rename σ τ).run = .error (.emission, .unresolved "lb") := by
  intro σ τ p failing image
  have hσ : p.IsRenaming σ := ⟨by decide, by decide⟩
  have hτ : p.IsRelabelling τ := by rw [IsRelabelling]; decide
  have hrun : p.run = .ok image := by decide +kernel
  have hσ' : failing.IsRenaming σ := ⟨by decide, by decide⟩
  have hτ' : failing.IsRelabelling τ := by rw [IsRelabelling]; decide
  have hfail : failing.run = .error (.emission, .unresolved "la") := by decide +kernel
  refine ⟨⟨hσ, hτ, hrun, ?_⟩, hσ', hτ', hfail, ?_⟩
  · rw [run_rename hσ hτ, hrun]
    rfl
  · rw [run_rename hσ' hτ', hfail]
    rfl

end Program

end TileAsm
