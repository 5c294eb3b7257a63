/-!
# Machines

The source image may be for one of two machines. On both, the conversion to the destination format
drops the base relocations, and on both the relocation type of a 64-bit absolute address is 2.

The main statement is `ofCode?_eq_some_iff`: a machine is recognised by its code and by nothing
else.
-/

namespace Rebase.Elf

/-- A machine whose images can be given base relocations. -/
inductive Machine where
  | riscv64
  | loongarch64
  deriving DecidableEq

namespace Machine

/-- The code that stands for a machine in a file header. -/
def code : Machine → UInt16
  | .riscv64 => 243
  | .loongarch64 => 258

/-- The machine that a code stands for. -/
def ofCode? (code : UInt16) : Option Machine :=
  if code = 243 then some .riscv64 else if code = 258 then some .loongarch64 else none

/-- The name of a machine. -/
def name : Machine → String
  | .riscv64 => "riscv64"
  | .loongarch64 => "loongarch64"

/-- The relocation type of a 64-bit absolute address. -/
def absoluteRelocation : Machine → UInt32
  | .riscv64 => 2
  | .loongarch64 => 2

/-- What the names of a machine's relocation types start with. -/
def relocationFamily : Machine → String
  | .riscv64 => "R_RISCV_"
  | .loongarch64 => "R_LARCH_"

/-- The relocation types of a machine that have a name here. -/
def relocationTypes : Machine → List (UInt32 × String)
  | .riscv64 =>
    [(0, "NONE"), (1, "32"), (2, "64"), (3, "RELATIVE"), (4, "COPY"), (5, "JUMP_SLOT"),
      (36, "ADD64"), (40, "SUB64"), (58, "IRELATIVE")]
  | .loongarch64 =>
    [(0, "NONE"), (1, "32"), (2, "64"), (3, "RELATIVE"), (4, "COPY"), (5, "JUMP_SLOT"),
      (12, "IRELATIVE"), (50, "ADD64"), (55, "SUB64")]

/-- The name of a relocation type; all types without a name of their own share one. -/
def relocationName (machine : Machine) (type : UInt32) : String :=
  machine.relocationFamily ++ ((machine.relocationTypes.lookup type).getD "UNKNOWN")

@[simp] theorem ofCode?_code (machine : Machine) : ofCode? machine.code = some machine := by
  cases machine <;> rfl

/-- **A machine is recognised by its code**, and no other code stands for one. -/
theorem ofCode?_eq_some_iff {c : UInt16} {machine : Machine} :
    ofCode? c = some machine ↔ machine.code = c := by
  constructor
  · intro h
    unfold ofCode? at h
    split at h
    · next hc =>
      cases h
      exact hc.symm
    · split at h
      · next hc =>
        cases h
        exact hc.symm
      · cases h
  · rintro rfl
    exact ofCode?_code machine

end Machine

end Rebase.Elf
