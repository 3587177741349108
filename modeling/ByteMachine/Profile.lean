import ByteMachine.Instruction

namespace ByteMachine

structure Profile where
  counts : Vector Nat 256

namespace Profile

def empty : Profile :=
  ⟨Vector.replicate 256 0⟩

def countOf (p : Profile) (opcode : UInt8) : Nat :=
  have : opcode.toNat < 256 := opcode.toNat_lt
  p.counts[opcode.toNat]

def record (p : Profile) (opcode : UInt8) : Profile :=
  have : opcode.toNat < 256 := opcode.toNat_lt
  ⟨p.counts.set opcode.toNat (p.countOf opcode + 1)⟩

def count (p : Profile) (i : Instruction) : Nat :=
  p.countOf i.opcode

def total (p : Profile) : Nat :=
  p.counts.toList.foldr (· + ·) 0

def rowLE (a b : String × Nat) : Bool :=
  b.2 < a.2 || (a.2 == b.2 && decide (a.1 ≤ b.1))

def rows (p : Profile) : List (String × Nat) :=
  ((Instruction.all.filter fun i ↦ p.count i ≠ 0).map fun i ↦ (i.mnemonic, p.count i)).mergeSort
    rowLE

end Profile

end ByteMachine
