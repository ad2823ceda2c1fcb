import NoMercyRecomp.GenSymbols
import NoMercyRecomp.InsertedCalls

/-!
# The functions that inserted calls name

Three repair passes insert calls on behalf of an address, and each builds the callee's
name in its own way. `fix_stumps` looks the address up in the section of the caller.
`fix_switches` asks whether any section starts a function there and writes the name
`func_<address>`. `fix_backbranches` asks the caller's section and writes that name too.

Overlays share addresses, and the symbol table suffixes names that collide. A call is
right when it names what the caller's own section has at the address: the function the
table lists there or else the static that N64Recomp makes. The callee is the one that
stands in the written file.
-/

namespace NoMercyRecomp.CallBinding

open TextScan SymbolTable GenSymbols Recompiled FixSwitches SwitchPlan InsertedCalls

/-- What the passes work on: the inputs of the symbol table, the ROM and the generated
files. -/
structure Program where
  inputs : Inputs
  rom : List UInt8
  files : List (List Line)

/-- The symbol table of a program. -/
def Program.dump (program : Program) : Dump := main program.inputs

/-- A function of the program's files. -/
def Program.Has (program : Program) (f : GenFunc) : Prop :=
  ∃ file ∈ program.files, f ∈ functions file

/-- The section lists the named function at the address. -/
def Lists (dump : Dump) (sec : Line) (target : Nat) (callee : Line) : Prop :=
  ∃ g, (sec, g) ∈ SymbolTable.entries dump ∧ g.vram = target ∧ g.name = callee

/-- The callee is what the section has at the address, and no other section's function. -/
structure Own (dump : Dump) (sec : Line) (target : Nat) (callee : Line) : Prop where
  names : if startsAt dump sec target = true then Lists dump sec target callee
    else ∃ index, secName2idx dump sec = some index ∧ callee = staticName index target
  foreign : ∀ entry ∈ SymbolTable.entries dump, entry.1 ≠ sec → entry.2.vram = target →
    entry.2.name ≠ callee

/-- Every call that a pass has inserted, as it stands in the files that the pass leaves, names
what the caller's own section has at the address. -/
def OwnBinding (program : Program) : Prop :=
  ∀ f, program.Has f → ∀ sec, sectionOf program.dump f.name = some sec →
    ∀ pass target callee, Inserts program.rom program.dump program.files pass f target callee →
      Own program.dump sec target callee

/-- The passes that write the plain name find it in the caller's section, and no other
section lists the sought name at the address. -/
structure Clear (dump : Dump) (sec : Line) (pass : Pass) (target : Nat) : Prop where
  plain : pass ≠ .stumps → Lists dump sec target (funcName target)
  alone : ∀ entry ∈ SymbolTable.entries dump, entry.1 ≠ sec → entry.2.vram = target →
    sought dump sec target pass ≠ some entry.2.name

/-- A section that lists a function at an address starts one there. -/
theorem lists_starts (dump : Dump) (sec : Line) (target : Nat) (callee : Line)
    (lists : Lists dump sec target callee) :
    startsAt dump sec target = true := by
  obtain ⟨g, listed, address, _⟩ := lists
  exact List.any_eq_true.mpr ⟨(sec, g), listed, by simp [address]⟩

/-- A plain name is no static's. -/
theorem funcName_notStatic (index target other : Nat) :
    funcName target ≠ staticName index other := by
  simp [funcName, staticName, str]

/-- The name that `fix_stumps` looks for is one that the section lists at the address, or
else the static's. -/
theorem stumps_names (dump : Dump) (sec : Line) (target : Nat) (callee : Line)
    (found : sought dump sec target .stumps = some callee) :
    if startsAt dump sec target = true then Lists dump sec target callee
      else ∃ index, secName2idx dump sec = some index ∧ callee = staticName index target := by
  cases listed : bySecVram dump sec target with
  | some name =>
    obtain rfl : name = callee := by simpa [sought, listed] using found
    obtain ⟨g, member, same, address⟩ := bySecVram_listed dump sec name target listed
    have lists : Lists dump sec target name := ⟨g, member, address, same⟩
    rw [if_pos (lists_starts dump sec target name lists)]
    exact lists
  | none =>
    have unlisted : startsAt dump sec target = false := by
      rw [← bySecVram_isSome, listed]
      rfl
    obtain ⟨index, position, named⟩ : ∃ index, secName2idx dump sec = some index ∧
        staticName index target = callee := by
      simpa [sought, listed] using found
    rw [if_neg (by simp [unlisted])]
    exact ⟨index, position, named.symm⟩

section Binding

variable (program : Program)

/-- A call that names what its pass looks for is bound to the section exactly when the plain
name, where the pass writes it, is listed there, and no other section lists the name. -/
theorem own_iff (sec : Line) (pass : Pass) (target : Nat) (callee : Line)
    (named : sought program.dump sec target pass = some callee) :
    Own program.dump sec target callee ↔ Clear program.dump sec pass target := by
  constructor
  · intro own
    constructor
    · intro other
      obtain rfl : funcName target = callee := by cases pass <;> simp_all [sought]
      by_cases starts : startsAt program.dump sec target = true
      · simpa [starts] using own.names
      · obtain ⟨index, _, same⟩ := by simpa [starts] using own.names
        exact absurd same (funcName_notStatic index target target)
    · intro entry listed elsewhere address same
      rw [named] at same
      exact own.foreign entry listed elsewhere address (Option.some.inj same).symm
  · intro free
    constructor
    · by_cases stumps : pass = .stumps
      · subst stumps
        exact stumps_names program.dump sec target callee named
      · obtain rfl : funcName target = callee := by cases pass <;> simp_all [sought]
        have lists := free.plain stumps
        rw [if_pos (lists_starts _ _ _ _ lists)]
        exact lists
    · intro entry listed elsewhere address same
      exact free.alone entry listed elsewhere address (by rw [named, same])

/-- Every call in the written files is bound to the caller's section exactly when, for every
address that a pass is asked for, the switch and the branch pass find the plain name in the
section, and no other section lists the sought name. What a pass is asked for and what it
looks for are read off the input; that the written callee is just that, and that every such
request is met, is what the reading of the written files shows. -/
theorem ownBinding_iff : OwnBinding program ↔
    ∀ f, program.Has f → ∀ sec, sectionOf program.dump f.name = some sec →
      ∀ pass target, Asks program.rom program.dump program.files pass f target →
        Clear program.dump sec pass target := by
  constructor
  · intro binding f has sec known pass target asks
    obtain ⟨callee, inserts⟩ :=
      asks_inserts program.rom program.dump program.files pass f target asks
    have named := (inserts_sought _ _ _ pass f sec target callee known inserts).2
    exact (own_iff program sec pass target callee named).mp
      (binding f has sec known pass target callee inserts)
  · intro clear f has sec known pass target callee inserts
    obtain ⟨asks, named⟩ := inserts_sought _ _ _ pass f sec target callee known inserts
    exact (own_iff program sec pass target callee named).mpr
      (clear f has sec known pass target asks)

/-- When the names are unambiguous, the name that a section lists at an address is sought
in that section alone. -/
theorem unambiguous_alone (unambiguous : Unambiguous program.inputs) (sec : Line) (target : Nat)
    (callee : Line) (lists : Lists program.dump sec target callee) (entry : Line × Func)
    (listed : entry ∈ SymbolTable.entries program.dump) (elsewhere : entry.1 ≠ sec) :
    entry.2.name ≠ callee := by
  intro same
  obtain ⟨g, own, _, rfl⟩ := lists
  exact elsewhere (main_names_unique program.inputs unambiguous entry (sec, g) listed own same).1

end Binding

/-! ## An arm that calls another overlay -/

/-- Two overlays in one slot; only the first starts a function at 0x80106800. -/
def slotInputs : Inputs where
  sections :=
    [⟨str "ovl_b", 0x1000, 0x80106760, 0x200, [⟨str "func_80106800", 0x80106800, 0x20⟩]⟩,
      ⟨str "ovl_c", 0, 0x80106760, 0x400, [⟨str "func_80106A00", 0x80106A00, 0x20⟩]⟩]
  extra := []
  skip := []
  rename := []

/-- A function of the second overlay with a truncated switch. -/
def slotBody : List Line :=
  [str "    // 0x80106A00: sltiu       $at, $v0, 0x2",
    str "    ctx->r1 = ctx->r2 < 0X2 ? 1 : 0;",
    str "    switch (jr_addend_80106A08 >> 2) \x7b",
    str "        case 0: goto L_80106A10; break;",
    str "        default: switch_error(__func__, 0x80106A08, 0x80106B00);",
    str "    \x7d",
    str "L_80106A10:",
    str "    // 0x80106A10: jr          $ra",
    str "    return;"]

def slotFile : List Line :=
  str "RECOMP_FUNC void func_80106A00(uint8_t* rdram, recomp_context* ctx) \x7b" ::
    (slotBody ++ [str ";\x7d"])

/-- The program; the second entry of the table is 0x80106800. -/
def slotProgram : Program where
  inputs := slotInputs
  rom := List.replicate 0x3A4 0 ++ [0x80, 0x10, 0x68, 0x00]
  files := [slotFile]

/-- The added arm names the other overlay's function. -/
theorem slotProgram_misbound : ¬ OwnBinding slotProgram := by
  intro binding
  have inFile :
      (⟨str "func_80106A00", [], slotBody, str ";\x7d"⟩ : GenFunc) ∈ functions slotFile := by
    decide +kernel
  have site :
      (slotBody.take 4, ⟨str "        ", str "80106A08", str "80106B00"⟩) ∈ sites slotBody := by
    decide +kernel
  have completes : verdict slotProgram.rom slotProgram.dump slotBody (slotBody.take 4)
      ⟨str "        ", str "80106A08", str "80106B00"⟩ =
          .completed 2 0x3A0 [.call 1 0x80106800] := by
    decide +kernel
  have known : sectionOf slotProgram.dump (str "func_80106A00") = some (str "ovl_c") := by
    decide +kernel
  have quiet : SwitchLoop.QuietTo slotProgram.rom slotProgram.dump [slotFile] 0 := by
    intro m bound file here f inside s among
    obtain rfl := Nat.le_zero.mp bound
    obtain rfl : slotFile = file := Option.some.inj here
    have all : ∀ f ∈ functions slotFile, ∀ s ∈ sites f.body,
        (verdict slotProgram.rom slotProgram.dump f.body s.1 s.2).raises = false := by
          decide +kernel
    exact all f inside s among
  have asks : Asks slotProgram.rom slotProgram.dump slotProgram.files .switches
      ⟨str "func_80106A00", [], slotBody, str ";\x7d"⟩ 0x80106800 :=
    .switch 0 slotFile _ _ 2 0x3A0 [.call 1 0x80106800] 1 0x80106800 rfl inFile quiet site completes
      (List.mem_singleton_self _)
  obtain ⟨callee, inserts⟩ := asks_inserts _ _ _ _ _ _ asks
  have named := (inserts_sought _ _ _ _ _ _ _ callee known inserts).2
  obtain rfl : funcName 0x80106800 = callee := Option.some.inj named
  have own := binding _ ⟨slotFile, List.mem_singleton_self _, inFile⟩ (str "ovl_c") known .switches
    0x80106800 _ inserts
  have listed : (str "ovl_b", ⟨str "func_80106800", 0x80106800, 0x20⟩) ∈
      SymbolTable.entries slotProgram.dump := by decide +kernel
  exact own.foreign _ listed (by decide) rfl (by decide +kernel)

end NoMercyRecomp.CallBinding
