import ByteMachine.Proofs.Iteration
import ByteMachine.Proofs.StepParts
import Mathlib.Data.Fintype.BigOperators
import Mathlib.Data.Fintype.Pigeonhole

namespace ByteMachine

namespace Output

def room? : Output → Option Nat
  | lines _ room => room
  | values _ => none

theorem room_eq (output : Output) : output.room = output.room?.getD 0 := by
  rcases output with bytes | ⟨text, _ | room⟩ <;> rfl

theorem print_isOk (output : Output) (value : UInt8) :
    (output.print value).isOk = output.room?.all fun room ↦ (line value).length ≤ room := by
  rcases output with bytes | ⟨text, _ | room⟩
  · rfl
  · rfl
  · rw [print]
    by_cases h : (line value).length ≤ room
    · rw [if_pos h]
      exact (decide_eq_true h).symm
    · rw [if_neg h]
      exact (decide_eq_false h).symm

theorem offer_lines (text : String) (room : Nat) (value : UInt8) :
    (lines text (some room)).offer (some value) =
      lines (text ++ String.ofList ((line value).take room))
        (some (room - (line value).length)) := by
  by_cases h : (line value).length ≤ room
  · rw [List.take_of_length_le h]
    exact offer_of_ok (if_pos h)
  · rw [Nat.sub_eq_zero_of_le (Nat.le_of_not_le h)]
    exact offer_of_error (if_neg h)

theorem room?_offer (output : Output) (value : UInt8) :
    (output.offer (some value)).room? = output.room?.map (· - (line value).length) := by
  rcases output with bytes | ⟨text, _ | room⟩
  · rfl
  · rfl
  · rw [offer_lines]
    rfl

theorem room?_offer_congr {output other : Output} (h : output.room? = other.room?)
    (value? : Option UInt8) : (output.offer value?).room? = (other.offer value?).room? := by
  cases value? with
  | none => exact h
  | some value => rw [room?_offer, room?_offer, h]

/-- Room is only used up. -/
structure Uses (before after : Output) : Prop where
  limited : after.room?.isSome = before.room?.isSome
  room_le : after.room ≤ before.room

theorem Uses.refl (output : Output) : Uses output output :=
  ⟨rfl, Nat.le_refl _⟩

theorem Uses.trans {o p q : Output} (h : Uses o p) (h' : Uses p q) : Uses o q :=
  ⟨h'.limited.trans h.limited, Nat.le_trans h'.room_le h.room_le⟩

theorem uses_offer (output : Output) (value? : Option UInt8) : Uses output (output.offer value?) := by
  cases value? with
  | none => exact .refl output
  | some value =>
    have hr := output.room?_offer value
    refine ⟨by rw [hr, Option.isSome_map], ?_⟩
    rw [room_eq, room_eq, hr]
    cases output.room? with
    | none => exact Nat.le_refl 0
    | some room => exact Nat.sub_le room _

end Output

namespace Computer

/-- The same as far as further steps go. -/
structure Alike (c d : Computer) : Prop where
  machine : c.machine = d.machine
  room : c.output.room? = d.output.room?

variable {c d : Computer}

theorem Alike.step (h : Alike c d) :
    c.step.result = d.step.result ∧ Alike c.step.computer d.step.computer := by
  have hok (value : UInt8) : (c.output.print value).isOk = (d.output.print value).isOk := by
    rw [Output.print_isOk, Output.print_isOk, h.room]
  obtain ⟨hresult, hm⟩ := step_congr h.machine fun value _ ↦ hok value
  refine ⟨hresult, hm, ?_⟩
  rw [offer_step, offer_step, h.machine]
  exact Output.room?_offer_congr h.room _

theorem Alike.after (h : Alike c d) (n : Nat) : Alike (c.after n) (d.after n) := by
  induction n with
  | zero => exact h
  | succ n ih =>
    rw [after_succ, after_succ]
    exact ih.step.2

theorem uses_step (c : Computer) : Output.Uses c.output c.step.computer.output := by
  rw [offer_step]
  exact Output.uses_offer _ _

theorem uses_after (c : Computer) (n : Nat) : Output.Uses c.output (c.after n).output := by
  induction n with
  | zero => exact .refl _
  | succ n ih =>
    rw [after_succ]
    exact ih.trans (c.after n).uses_step

theorem pc_lt_of_step {b : Bool} (h : c.step.result = .ok b) : c.machine.pc < 256 := by
  have hs := c.steps_step
  generalize c.step = outcome at h hs
  cases hs with
  | unfetched | refused | unprinted => cases h
  | silent hf | printed hf =>
    have hn := (Machine.fetch_eq_ok_iff.mp hf).1
    omega

theorem goesOn_of_alike {i j : Nat} (hij : i < j) (ha : Alike (c.after i) (c.after j))
    (h : c.GoesOn j) (n : Nat) : c.GoesOn n := by
  intro k _
  induction k using Nat.strong_induction_on with
  | _ k ih =>
    by_cases hk : k < j
    · exact h k hk
    · obtain ⟨t, rfl⟩ := Nat.exists_eq_add_of_le (Nat.not_lt.mp hk)
      -- Behind `j` every step repeats the one as far behind `i`.
      have hback : c.answer (i + t) = c.answer (j + t) := by
        rw [answer, answer, after_add, after_add]
        exact (ha.after t).step.1
      rw [← hback]
      exact ih (i + t) (by omega) (by omega)

abbrev Configuration (room : Nat) : Type :=
  (Fin 256 → Fin 256) × (Fin 8 → Fin 256) × Fin 256 × Fin 257 × Fin (room + 1)

def configuration (room : Nat) (c : Computer) : Configuration room :=
  (fun i ↦ (c.machine.memory.cells.get i).toFin,
    fun i ↦ (c.machine.registers.general.get i).toFin,
    c.machine.registers.flags.toFin, Fin.ofNat 257 c.machine.pc, Fin.ofNat (room + 1) c.output.room)

theorem fillings_add (m n : Nat) : fillings (m + n) = fillings m * fillings n :=
  pow_add 256 m n

theorem card_bytes (n : Nat) : Fintype.card (Fin n → Fin 256) = fillings n := by
  rw [Fintype.card_fun, Fintype.card_fin, Fintype.card_fin]
  rfl

theorem card_fields (m n p r : Nat) :
    Fintype.card ((Fin m → Fin 256) × (Fin n → Fin 256) × Fin 256 × Fin p × Fin r) =
      fillings (m + n + 1) * p * r := by
  have hone : Fintype.card (Fin 256) = fillings 1 := Fintype.card_fin 256
  rw [fillings_add, fillings_add, Fintype.card_prod, Fintype.card_prod, Fintype.card_prod,
    Fintype.card_prod, card_bytes, card_bytes, hone, Fintype.card_fin, Fintype.card_fin]
  simp only [mul_assoc]

theorem card_configuration (c : Computer) :
    Fintype.card (Configuration c.output.room) = c.configurations :=
  card_fields 256 8 257 (c.output.room + 1)

theorem eq_of_toFin {n : Nat} {v w : Vector UInt8 n}
    (h : (fun i ↦ (v.get i).toFin) = fun i ↦ (w.get i).toFin) : v = w := by
  refine Vector.ext fun i hi ↦ UInt8.toFin_inj.mp ?_
  exact congrFun h ⟨i, hi⟩

theorem alike_of_configuration {room : Nat} (hc : c.machine.pc < 256) (hd : d.machine.pc < 256)
    (hu : c.output.room?.isSome = d.output.room?.isSome) (hrc : c.output.room ≤ room)
    (hrd : d.output.room ≤ room) (h : configuration room c = configuration room d) : Alike c d := by
  simp only [configuration, Prod.mk.injEq] at h
  obtain ⟨hmemory, hregisters, hflags, hpc, hroom⟩ := h
  have hpc : c.machine.pc = d.machine.pc := by
    have hv := congrArg Fin.val hpc
    simp only [Fin.ofNat] at hv
    omega
  have hroom : c.output.room = d.output.room := by
    have hv := congrArg Fin.val hroom
    simp only [Fin.ofNat] at hv
    rwa [Nat.mod_eq_of_lt (by omega), Nat.mod_eq_of_lt (by omega)] at hv
  refine ⟨?_, ?_⟩
  · exact Machine.ext (Memory.ext (eq_of_toFin hmemory))
      (Registers.ext (eq_of_toFin hregisters) (UInt8.toFin_inj.mp hflags)) hpc
  · rw [Output.room_eq, Output.room_eq] at hroom
    cases ho : c.output.room? with
    | none =>
      rw [ho] at hu
      exact (Option.not_isSome_iff_eq_none.mp (by simp [← hu])).symm
    | some a =>
      rw [ho] at hu hroom
      obtain ⟨b, hb⟩ := Option.isSome_iff_exists.mp hu.symm
      rw [hb] at hroom ⊢
      exact congrArg some hroom

/-- A run with more steps than there are configurations never ends. -/
theorem goesOn_of_configurations (h : c.GoesOn (c.configurations + 1)) (n : Nat) : c.GoesOn n := by
  -- There are more moments than configurations, so one of these occurs twice.
  obtain ⟨i, j, hne, hij⟩ := Fintype.exists_ne_map_eq_of_card_lt
    (fun k : Fin (c.configurations + 1) ↦ configuration c.output.room (c.after k))
    (by rw [card_configuration, Fintype.card_fin]; exact Nat.lt_succ_self _)
  have hpc (k : Fin (c.configurations + 1)) : (c.after k).machine.pc < 256 :=
    pc_lt_of_step (h k k.isLt)
  have hu (k : Fin (c.configurations + 1)) := c.uses_after k
  have ha (k l : Fin (c.configurations + 1))
      (hkl : configuration c.output.room (c.after k) = configuration c.output.room (c.after l)) :
      Alike (c.after k) (c.after l) :=
    alike_of_configuration (hpc k) (hpc l) ((hu k).limited.trans (hu l).limited.symm)
      (hu k).room_le (hu l).room_le hkl
  rcases Nat.lt_or_gt_of_ne (Fin.val_ne_of_ne hne) with hlt | hlt
  · exact goesOn_of_alike hlt (ha i j hij) (h.mono (by omega)) n
  · exact goesOn_of_alike hlt (ha j i hij.symm) (h.mono (by omega)) n

end Computer

end ByteMachine
