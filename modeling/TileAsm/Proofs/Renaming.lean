import TileAsm.Proofs.Assembly

/-!
# Renaming registers and dropping labels

The names of registers matter only as far as they tell registers apart and single out the fixed
ones. `Program.IsRenaming` says that a renaming respects both; it then carries the user registers of
a program over one by one, in the same order (`userRegisters_renameRegisters`), so that every
register keeps its number (`get?_renameRegisters`) and every instruction without a label operand
its bytes (`encode_resolve_renameRegisters`).

Labels take no room in the image and mention no register, so a bound program has the same image
without them (`emit_code`). Where nothing jumps, a program can therefore be assembled again after
both changes, and gives the same image (`exists_assemble_renameRegisters_code`).
-/

namespace TileAsm

/-! ### Label operands -/

theorem Instruction.eq_address_of_target? {i : Instruction} {t : LabelRef}
    (h : i.target? = some t) : ∃ op, i = .address op t := by
  cases i with
  | address op _ => exact ⟨op, congrArg (Instruction.address op) (Option.some.inj h)⟩
  | _ => exact absurd h (by simp [target?])

/-- An instruction that goes nowhere takes nothing from the table of labels. -/
theorem Instruction.resolve_of_target?_eq_none {i : Instruction} (h : i.target? = none)
    {registers : RegisterTable} {labels : LabelTable} :
    i.resolve registers labels =
      i.mapRegisters fun r ↦ (registers.get? r.name).elim r r.bindTo := by
  cases i with
  | address op t => cases h
  | _ => rfl

/-! ### Renaming registers -/

/-- The operand with its register renamed. -/
def RegisterRef.rename (σ : String → String) (r : RegisterRef) : RegisterRef :=
  { r with name := σ r.name }

/-- The program with its registers renamed. -/
def Program.renameRegisters (σ : String → String) (p : Program) : Program :=
  p.map (Instruction.mapRegisters (RegisterRef.rename σ))

theorem Instruction.Unbound.rename {i : Instruction} (h : i.Unbound) {σ : String → String} :
    (i.mapRegisters (RegisterRef.rename σ)).Unbound := by
  constructor
  · intro r hr
    rw [registers_mapRegisters] at hr
    obtain ⟨s, hs, rfl⟩ := List.mem_map.1 hr
    exact h.1 s hs
  · rw [target?_mapRegisters]
    exact h.2

namespace Program

/-- A renaming that keeps the registers of a program apart and the fixed ones fixed. -/
structure IsRenaming (p : Program) (σ : String → String) : Prop where
  /-- Different registers stay different. -/
  injOn : ∀ r ∈ p.registers, ∀ s ∈ p.registers, σ r.name = σ s.name → r.name = s.name
  /-- A fixed register keeps its number, and no other becomes fixed. -/
  fixed : ∀ r ∈ p.registers, fixedNumber? (σ r.name) = fixedNumber? r.name

variable {p : Program} {σ : String → String}

/-- Renaming keeps the order of the registers. -/
theorem registers_renameRegisters :
    (p.renameRegisters σ).registers = p.registers.map (RegisterRef.rename σ) :=
  p.registers_map_mapRegisters _

theorem size_renameRegisters : (p.renameRegisters σ).size = p.size :=
  size_map_of_size_eq (Instruction.size_mapRegisters _) p

/-- The user registers are renamed one by one. -/
theorem userRegisters_renameRegisters (h : p.IsRenaming σ) :
    (p.renameRegisters σ).userRegisters = p.userRegisters.map σ := by
  have hnames :
      (p.renameRegisters σ).registers.map (·.name) = (p.registers.map (·.name)).map σ := by
    rw [registers_renameRegisters, List.map_map, List.map_map]
    rfl
  have hfilter : ((p.registers.map (·.name)).map σ).filter (fun n ↦ (fixedNumber? n).isNone) =
      ((p.registers.map (·.name)).filter fun n ↦ (fixedNumber? n).isNone).map σ := by
    rw [List.filter_map]
    congr 1
    refine List.filter_congr fun name hname ↦ ?_
    obtain ⟨r, hr, rfl⟩ := List.mem_map.1 hname
    rw [Function.comp_apply, h.fixed r hr]
  rw [userRegisters, hnames, hfilter]
  refine eraseDups_map_of_injOn fun a ha b hb heq ↦ ?_
  obtain ⟨r, hr, rfl⟩ := List.mem_map.1 (List.mem_filter.1 ha).1
  obtain ⟨s, hs, rfl⟩ := List.mem_map.1 (List.mem_filter.1 hb).1
  exact h.injOn r hr s hs heq

/-- A renamed register keeps its number. -/
theorem get?_renameRegisters (h : p.IsRenaming σ) {t t' : RegisterTable}
    (ht : t.user = p.userRegisters) (ht' : t'.user = (p.renameRegisters σ).userRegisters)
    {r : RegisterRef} (hr : r ∈ p.registers) : t'.get? (σ r.name) = t.get? r.name := by
  have hplace : (p.userRegisters.map σ).idxOf? (σ r.name) = p.userRegisters.idxOf? r.name := by
    refine idxOf?_map_of_injOn fun name hname heq ↦ ?_
    obtain ⟨⟨s, hs, rfl⟩, -⟩ := mem_userRegisters.1 hname
    exact h.injOn s hs r hr heq
  rw [RegisterTable.get?_eq, RegisterTable.get?_eq, ht', ht, userRegisters_renameRegisters h,
    hplace, h.fixed r hr]

/-- A renamed instruction has the same bytes, if it has no label operand. -/
theorem encode_resolve_renameRegisters (h : p.IsRenaming σ) {t t' : RegisterTable}
    {labels labels' : LabelTable} (ht : p.allocate = .ok t)
    (ht' : t'.user = (p.renameRegisters σ).userRegisters) {i : Instruction} (hi : i ∈ p)
    (htarget : i.target? = none) :
    ((i.mapRegisters (RegisterRef.rename σ)).resolve t' labels').encode =
      (i.resolve t labels).encode := by
  have htarget' : (i.mapRegisters (RegisterRef.rename σ)).target? = none := by
    rw [Instruction.target?_mapRegisters, htarget]
  rw [Instruction.resolve_of_target?_eq_none htarget',
    Instruction.resolve_of_target?_eq_none htarget, Instruction.mapRegisters_mapRegisters]
  refine Instruction.encode_mapRegisters_congr fun r hr ↦ ?_
  have hmem : r ∈ p.registers := List.mem_flatMap.2 ⟨i, hi, hr⟩
  have hget : t'.get? (σ r.name) = t.get? r.name :=
    get?_renameRegisters h (allocate_eq_ok_iff.1 ht).2 ht' hmem
  obtain ⟨number, hnumber⟩ := exists_get?_of_allocate ht hmem
  -- both operands are bound to the same byte, since a renaming keeps the mode
  show ((t'.get? (σ r.name)).elim _ _ : RegisterRef).resolved = _
  rw [hget, hnumber]
  rfl

/-! ### Dropping labels -/

/-- The program without its labels. -/
def code (p : Program) : Program := p.filter (!·.isLabel)

theorem code_cons (i : Instruction) (p : Program) :
    code (i :: p) = if i.isLabel then p.code else i :: p.code := by
  cases hlabel : i.isLabel <;> simp [code, hlabel]

/-- Labels mention no registers. -/
theorem registers_code (p : Program) : p.code.registers = p.registers := by
  induction p with
  | nil => rfl
  | cons i p ih =>
    rw [code_cons]
    cases hlabel : i.isLabel with
    | true =>
      obtain ⟨name, doc, rfl⟩ := Instruction.eq_label_of_isLabel hlabel
      exact ih
    | false => exact congrArg (i.registers ++ ·) ih

/-- Labels take no room. -/
theorem size_code (p : Program) : p.code.size = p.size := by
  induction p with
  | nil => rfl
  | cons i p ih =>
    rw [code_cons, size_cons, ← ih]
    cases hlabel : i.isLabel with
    | true =>
      obtain ⟨name, doc, rfl⟩ := Instruction.eq_label_of_isLabel hlabel
      exact (Nat.zero_add _).symm
    | false => rfl

/-- Labels take no room in an image. -/
theorem emit_code (p : Program) : p.code.emit = p.emit := by
  induction p with
  | nil => rfl
  | cons i p ih =>
    rw [code_cons, emit_cons, ← ih]
    cases hlabel : i.isLabel with
    | true =>
      obtain ⟨name, doc, rfl⟩ := Instruction.eq_label_of_isLabel hlabel
      show emit (code p) = do return [] ++ (← emit (code p))
      cases emit (code p) <;> rfl
    | false => exact emit_cons i (code p)

theorem userRegisters_code (p : Program) : p.code.userRegisters = p.userRegisters := by
  unfold userRegisters
  rw [registers_code]

/-- The numbers of registers do not depend on labels. -/
theorem allocate_code (p : Program) : p.code.allocate = p.allocate := by
  unfold allocate
  rw [userRegisters_code]

/-- Binding makes no label of an instruction and no instruction of a label. -/
theorem code_resolve (p : Program) (registers : RegisterTable) (labels : LabelTable) :
    code (p.resolve registers labels) = p.code.resolve registers labels := by
  rw [code, resolve]
  rw [List.filter_map]
  congr 1
  refine List.filter_congr fun i _ ↦ ?_
  rw [Function.comp_apply, Instruction.isLabel_resolve]

/-! ### Both at once -/

/-- **A program without jumps is assembled the same** when its labels are dropped and its registers
are renamed. -/
theorem exists_assemble_renameRegisters_code {a : Assembly} (ha : p.assemble = .ok a)
    (hunbound : ∀ i ∈ p, i.Unbound) (htarget : ∀ i ∈ p, i.target? = none) (h : p.IsRenaming σ) :
    ∃ a', (p.code.renameRegisters σ).assemble = .ok a' ∧ a'.image = a.image := by
  obtain ⟨hregisters, hlabels, hprogram, himage⟩ := assemble_eq_ok_iff.1 ha
  have hmem : ∀ {i}, i ∈ p.code → i ∈ p := fun hi ↦ (List.mem_filter.1 hi).1
  have hcode : p.code.IsRenaming σ := by
    constructor <;> rw [registers_code]
    · exact h.injOn
    · exact h.fixed
  -- the renamed program can be assembled: nothing in it is bound, and nothing jumps
  have hexists : ∃ a', (p.code.renameRegisters σ).assemble = .ok a' := by
    refine (exists_assemble_eq_ok_iff ?_).2 ⟨?_, ?_, ?_⟩
    · intro i hi
      obtain ⟨j, hj, rfl⟩ := List.mem_map.1 hi
      exact (hunbound j (hmem hj)).rename
    · rw [userRegisters_renameRegisters hcode, List.length_map, userRegisters_code]
      exact (allocate_eq_ok_iff.1 hregisters).1
    · rw [size_renameRegisters, size_code]
      exact layout_eq_ok_iff.1 ⟨_, hlabels⟩
    · intro i hi l hl
      obtain ⟨j, hj, rfl⟩ := List.mem_map.1 hi
      obtain ⟨target, ht, -⟩ := targets_iff.1 hl
      rw [Instruction.target?_mapRegisters, htarget j (hmem hj)] at ht
      cases ht
  obtain ⟨a', ha'⟩ := hexists
  refine ⟨a', ha', ?_⟩
  obtain ⟨hregisters', -, hprogram', himage'⟩ := assemble_eq_ok_iff.1 ha'
  have hsame : a'.program.emit = a.program.emit := by
    rw [hprogram', hprogram, ← emit_code (p.resolve _ _), code_resolve, resolve, renameRegisters,
      List.map_map]
    refine emit_map_congr fun i hi ↦ ?_
    exact encode_resolve_renameRegisters hcode (p.allocate_code ▸ hregisters)
      (allocate_eq_ok_iff.1 hregisters').2 hi (htarget i (hmem hi))
  rw [himage, himage'] at hsame
  exact Except.ok.inj hsame

end Program

end TileAsm
