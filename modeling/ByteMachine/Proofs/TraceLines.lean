import ByteMachine.Machine
import ByteMachine.Proofs.Answers
import ByteMachine.Proofs.Numerals

namespace ByteMachine

open Text

/-- What can be seen of a machine: the program counter, the cells at it and behind it, as far as
there is memory, and the registers. -/
@[ext]
structure Sight where
  pc : Nat
  first : Option UInt8
  second : Option UInt8
  third : Option UInt8
  registers : Vector UInt8 8
  deriving DecidableEq

def Machine.sight (m : Machine) : Sight where
  pc := m.pc
  first := m.memory.cells[m.pc]?
  second := m.memory.cells[m.pc + 1]?
  third := m.memory.cells[m.pc + 2]?
  registers := m.registers.general

namespace Sight

def cellText : Option UInt8 → List Char
  | some value => Numeral.upperHexadecimal value.toNat
  | none => ['-', '-']

def texts (s : Sight) : List (List Char) :=
  "TRACE:".toList :: Numeral.upperHexadecimal s.pc :: ['|'] :: cellText s.first ::
    cellText s.second :: cellText s.third :: ['|'] ::
    s.registers.toList.map fun value ↦ Numeral.upperHexadecimal value.toNat

def fields (line : String) : List (List Char) :=
  line.toList.splitOn ' '

def number? (text : List Char) : Option Nat :=
  (Numeral.read 16 (16 ^ text.length) text).toOption

def cell? (text : List Char) : Option (Option UInt8) :=
  if text = ['-', '-'] then some none else (number? text).map (some ∘ UInt8.ofNat)

def registers? (texts : List (List Char)) : Option (Vector UInt8 8) := do
  let values ← texts.mapM fun text ↦ (number? text).map UInt8.ofNat
  if h : values.length = 8 then some ⟨values.toArray, h⟩ else none

/-- What a trace line tells, if it is one. -/
def read? (line : String) : Option Sight :=
  match fields line with
  | _ :: pc :: _ :: first :: second :: third :: _ :: registers => do
    return ⟨← number? pc, ← cell? first, ← cell? second, ← cell? third, ← registers? registers⟩
  | _ => none

theorem number?_upperHexadecimal (n : Nat) : number? (Numeral.upperHexadecimal n) = some n := by
  have hd := Numeral.denotes_upperHexadecimal n
  rw [number?, Numeral.read_of_denotes (Nat.le_refl 16) hd (Nat.le_of_lt (hd.lt_pow (by decide)))]
  rfl

theorem isSome_digitValue? (n : Nat) :
    ∀ c ∈ Numeral.upperHexadecimal n, (Numeral.digitValue? c).isSome := by
  refine Numeral.forall_of_denotes (fun c d hc ↦ ?_) (Numeral.denotes_upperHexadecimal n)
  rw [Numeral.digitValue?_of_isDigit (Nat.le_refl 16) hc]
  rfl

theorem upperHexadecimal_ne_dashes (n : Nat) : Numeral.upperHexadecimal n ≠ ['-', '-'] := by
  intro h
  have hd := isSome_digitValue? n '-' (h ▸ List.mem_cons_self)
  cases hd

theorem cell?_cellText (value? : Option UInt8) : cell? (cellText value?) = some value? := by
  cases value? with
  | none => rfl
  | some value =>
    rw [cellText, cell?, if_neg (upperHexadecimal_ne_dashes _), number?_upperHexadecimal]
    simp

theorem cellText_eq_dashes_iff {value? : Option UInt8} :
    cellText value? = ['-', '-'] ↔ value? = none := by
  cases value? with
  | none => exact ⟨fun _ ↦ rfl, fun _ ↦ rfl⟩
  | some value => exact ⟨fun h ↦ absurd h (upperHexadecimal_ne_dashes _), nofun⟩

theorem registers?_map (values : Vector UInt8 8) :
    registers? (values.toList.map fun value ↦ Numeral.upperHexadecimal value.toNat) =
      some values := by
  have hvalues : (values.toList.map fun value ↦ Numeral.upperHexadecimal value.toNat).mapM
      (fun text ↦ (number? text).map UInt8.ofNat) = some values.toList := by
    rw [List.mapM_map]
    refine (mapM_eq_some_map fun value _ ↦ ?_).trans (congrArg some values.toList.map_id)
    simp [number?_upperHexadecimal]
  rw [registers?, hvalues]
  simp [Vector.toList]

theorem blank_not_mem_texts (s : Sight) : ∀ text ∈ s.texts, ' ' ∉ text := by
  have hnumber (n : Nat) : ' ' ∉ Numeral.upperHexadecimal n := by
    intro h
    cases isSome_digitValue? n ' ' h
  have hcell (value? : Option UInt8) : ' ' ∉ cellText value? := by
    cases value? with
    | none => decide
    | some value => exact hnumber _
  simp only [texts, List.forall_mem_cons, List.forall_mem_map]
  exact ⟨by decide, hnumber _, by decide, hcell _, hcell _, hcell _, by decide,
    fun value _ ↦ hnumber _⟩

end Sight

namespace Machine

theorem cellText_eq (m : Machine) (address : Nat) :
    m.cellText address = Sight.cellText m.memory.cells[address]? := by
  rw [cellText, Memory.read]
  by_cases h : address < 256
  · rw [dif_pos h, Vector.getElem?_eq_getElem h]
    rfl
  · rw [dif_neg h, Vector.getElem?_eq_none (Nat.not_lt.mp h)]
    rfl

theorem toList_traceLine (m : Machine) :
    m.traceLine.toList = [' '].intercalate m.sight.texts := by
  rw [Sight.texts, List.intercalate_cons_cons]
  simp [traceLine, cellText_eq, sight]

theorem fields_traceLine (m : Machine) : Sight.fields m.traceLine = m.sight.texts := by
  rw [Sight.fields, toList_traceLine]
  exact List.splitOn_intercalate ' ' m.sight.blank_not_mem_texts nofun

theorem read?_traceLine (m : Machine) : Sight.read? m.traceLine = some m.sight := by
  rw [Sight.read?, fields_traceLine, Sight.texts]
  simp only [Sight.number?_upperHexadecimal, Sight.cell?_cellText, Sight.registers?_map]
  rfl

variable {m other : Machine}

theorem traceLine_eq_iff : m.traceLine = other.traceLine ↔ m.sight = other.sight := by
  constructor
  · intro h
    have hread := m.read?_traceLine
    rw [h, other.read?_traceLine] at hread
    exact (Option.some.inj hread).symm
  · intro h
    apply String.toList_inj.mp
    rw [toList_traceLine, toList_traceLine, h]

theorem sight_eq_iff :
    m.sight = other.sight ↔
      m.pc = other.pc ∧
        (∀ i : Fin 3, m.memory.cells[m.pc + i]? = other.memory.cells[other.pc + i]?) ∧
        m.registers.general = other.registers.general := by
  simp [Sight.ext_iff, sight, Fin.forall_fin_succ, and_assoc]

theorem getElem?_fields (m : Machine) (i : Fin 3) :
    (Sight.fields m.traceLine)[3 + i.val]? =
      some (Sight.cellText m.memory.cells[m.pc + i.val]?) := by
  rw [fields_traceLine]
  match i with
  | 0 | 1 | 2 => rfl

/-- A trace line can be read back. It gives the program counter, the three cells from there on, of
which each has a value or lies outside memory, and the registers; so the lines of two machines are
equal exactly if none of these differs. A cell that lies outside memory is shown as such. -/
theorem traceLine_read_back (m : Machine) :
    Sight.read? m.traceLine = some m.sight ∧
    (∀ other : Machine, m.traceLine = other.traceLine ↔
      m.pc = other.pc ∧
        (∀ i : Fin 3, m.memory.cells[m.pc + i]? = other.memory.cells[other.pc + i]?) ∧
        m.registers.general = other.registers.general) ∧
    ∀ i : Fin 3,
      (Sight.fields m.traceLine)[3 + i.val]? = some ['-', '-'] ↔ 256 ≤ m.pc + i := by
  refine ⟨m.read?_traceLine, fun other ↦ traceLine_eq_iff.trans sight_eq_iff, fun i ↦ ?_⟩
  rw [getElem?_fields, Option.some.injEq, Sight.cellText_eq_dashes_iff,
    Vector.getElem?_eq_none_iff]

/-- The last cell is at the program counter. -/
example : { Machine.initial 0xF4 with pc := 255 }.traceLine =
    "TRACE: FF | 00 -- -- | 00 00 00 00 00 00 00 F4" := by
  rfl

end Machine

end ByteMachine
