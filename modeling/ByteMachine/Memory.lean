import ByteMachine.Fault

namespace ByteMachine

@[ext]
structure Memory where
  cells : Vector UInt8 256
  deriving DecidableEq

namespace Memory

def blank : Memory :=
  ⟨Vector.replicate 256 0⟩

def get (m : Memory) (address : UInt8) : UInt8 :=
  have : address.toNat < 256 := address.toNat_lt
  m.cells[address.toNat]

def set (m : Memory) (address value : UInt8) : Memory :=
  have : address.toNat < 256 := address.toNat_lt
  ⟨m.cells.set address.toNat value⟩

def read (m : Memory) (address : Nat) : Except Fault UInt8 :=
  if _h : address < 256 then .ok m.cells[address] else .error (.outOfRangeAddress address)

def write (m : Memory) (address : Nat) (value : UInt8) : Except Fault Memory :=
  if _h : address < 256 then .ok ⟨m.cells.set address value⟩
  else .error (.outOfRangeAddress address)

/-- Copies a program to the first cells and keeps the others. A program that does not fit is not
copied at all. -/
def load (m : Memory) (program : List UInt8) : Except Fault Memory :=
  if program.length ≤ 256 then .ok ⟨Vector.ofFn fun i ↦ program.getD i m.cells[i]⟩
  else .error (.load (.programTooLarge program.length))

@[simp]
theorem read_toNat (m : Memory) (address : UInt8) : m.read address.toNat = .ok (m.get address) :=
  dif_pos address.toNat_lt

@[simp]
theorem write_toNat (m : Memory) (address value : UInt8) :
    m.write address.toNat value = .ok (m.set address value) :=
  dif_pos address.toNat_lt

theorem get_set (m : Memory) (address value other : UInt8) :
    (m.set address value).get other = if other = address then value else m.get other := by
  simp only [get, set, Vector.getElem_set, UInt8.toNat_inj, eq_comm]

end Memory

end ByteMachine
