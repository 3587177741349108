import ByteMachine.Fault

namespace ByteMachine

namespace Flags

def equal : UInt8 := 1

def less : UInt8 := 2

def greater : UInt8 := 3

end Flags

@[ext]
structure Registers where
  general : Vector UInt8 8
  flags : UInt8
  deriving DecidableEq

namespace Registers

def defaultTop : UInt8 :=
  0xF4

def initial (stackTop : UInt8) : Registers :=
  ⟨(Vector.replicate 8 0).set 7 stackTop, 0⟩

def get (r : Registers) (index : UInt8) : Except Fault UInt8 :=
  if _h : index.toNat < 8 then .ok r.general[index.toNat] else .error (.outOfRangeRegister index)

def set (r : Registers) (index value : UInt8) : Except Fault Registers :=
  if _h : index.toNat < 8 then .ok { r with general := r.general.set index.toNat value }
  else .error (.outOfRangeRegister index)

def check (r : Registers) (index : UInt8) : Except Fault Unit :=
  (r.get index).map fun _ ↦ ()

theorem get_eq_error {r : Registers} {index : UInt8} (h : ¬ index.toNat < 8) :
    r.get index = .error (.outOfRangeRegister index) :=
  dif_neg h

theorem set_eq_error {r : Registers} {index value : UInt8} (h : ¬ index.toNat < 8) :
    r.set index value = .error (.outOfRangeRegister index) :=
  dif_neg h

def stackPointer (r : Registers) : UInt8 :=
  r.general[7]

def setStackPointer (r : Registers) (value : UInt8) : Registers :=
  { r with general := r.general.set 7 value }

def setFlags (r : Registers) (value : UInt8) : Registers :=
  { r with flags := value }

end Registers

end ByteMachine
