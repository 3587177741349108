import ByteMachine.Proofs.Lockstep
import ByteMachine.Proofs.Numerals
import ByteMachine.Proofs.Resumption
import ByteMachine.Proofs.Text

namespace ByteMachine

open Text

namespace Output

def written (values : List UInt8) : List Char :=
  values.flatMap line

/-- The values that stand in a text, one on a line, if nothing else does. -/
def recover (text : String) : Option (List UInt8) :=
  (Text.lines text.toList).mapM fun line ↦
    match Numeral.read 10 255 line with
    | .ok n => some (UInt8.ofNat n)
    | .error _ => none

theorem denotes_decimal (value : UInt8) :
    Numeral.Denotes 10 (Numeral.decimal value.toNat) value.toNat :=
  Numeral.denotes_write (by decide) _ _

theorem not_mem_decimal (value : UInt8) : '\n' ∉ Numeral.decimal value.toNat := by
  intro h
  have hd := Numeral.isDigit_of_denotes (denotes_decimal value) '\n' h
  cases hd

theorem lines_written (values : List UInt8) :
    Text.lines (written values) = values.map fun value ↦ Numeral.decimal value.toNat := by
  induction values with
  | nil => rfl
  | cons value values ih =>
    rw [written, List.flatMap_cons, line, List.append_assoc, Text.lines, List.singleton_append,
      pieces_append_cons (not_mem_decimal value), List.map_cons]
    exact congrArg _ ih

theorem recover_written (values : List UInt8) :
    recover (String.ofList (written values)) = some values := by
  have hread (value : UInt8) : Numeral.read 10 255 (Numeral.decimal value.toNat) =
      .ok value.toNat :=
    Numeral.read_of_denotes (by decide) (denotes_decimal value) (Nat.le_of_lt_succ value.toNat_lt)
  rw [recover, String.toList_ofList, lines_written, List.mapM_map]
  refine (mapM_eq_some_map fun value _ ↦ ?_).trans (congrArg some values.map_id)
  simp [hread]

theorem utf8Size_line (value : UInt8) : ∀ c ∈ line value, c.utf8Size = 1 := by
  have hdigit (c : Char) (d : Nat) (h : Numeral.IsDigit 10 c d) : c.utf8Size = 1 := by
    apply h.elim
    decide
  refine List.forall_mem_append.mpr ⟨?_, ?_⟩
  · exact Numeral.forall_of_denotes hdigit (denotes_decimal value)
  · exact List.forall_mem_singleton.mpr rfl

theorem utf8ByteSize_ofList {text : List Char} (h : ∀ c ∈ text, c.utf8Size = 1) :
    (String.ofList text).utf8ByteSize = text.length := by
  induction text with
  | nil => rfl
  | cons c text ih =>
    obtain ⟨hc, ht⟩ := List.forall_mem_cons.mp h
    rw [String.ofList_cons, String.utf8ByteSize_append, String.utf8ByteSize_singleton, hc, ih ht,
      List.length_cons, Nat.add_comm]

theorem isOk_print_lines (text : String) (room : Nat) (value : UInt8) :
    ((lines text (some room)).print value).isOk ↔ (line value).length ≤ room := by
  rw [print_isOk]
  exact decide_eq_true_iff

theorem written_append (first second : List UInt8) :
    written (first ++ second) = written first ++ written second :=
  List.flatMap_append

theorem offers_lines (text : String) (room : Nat) (values : List UInt8) :
    (lines text (some room)).offers values =
      lines (text ++ String.ofList ((written values).take room))
        (some (room - (written values).length)) := by
  induction values generalizing text room with
  | nil => simp [offers, written]
  | cons value values ih =>
    rw [offers, List.foldl_cons, offer_lines, ← offers, ih, String.append_assoc,
      ← String.ofList_append, ← List.take_append, Nat.sub_sub, ← List.length_append]
    rfl

theorem offers_unlimited (text : String) (values : List UInt8) :
    (lines text none).offers values = lines (text ++ String.ofList (written values)) none := by
  induction values generalizing text with
  | nil => simp [offers, written]
  | cons value values ih =>
    have hoffer : (lines text none).offer (some value) =
        lines (text ++ String.ofList (line value)) none := offer_of_ok rfl
    rw [offers, List.foldl_cons, hoffer, ← offers, ih, String.append_assoc,
      ← String.ofList_append]
    rfl

theorem print_lines_of_isOk {bytes : Array UInt8} {room : Option Nat} {value : UInt8}
    (h : ((lines (values bytes).text room).print value).isOk) :
    ∃ left, (lines (values bytes).text room).print value =
      .ok (.lines (values (bytes.push value)).text left) := by
  have ht : (values (bytes.push value)).text =
      (values bytes).text ++ String.ofList (line value) := by
    rw [text, text, Array.toList_push, List.flatMap_append, String.ofList_append,
      List.flatMap_singleton]
  rw [ht]
  cases room with
  | none => exact ⟨none, rfl⟩
  | some room => exact ⟨_, if_pos ((isOk_print_lines _ _ _).mp h)⟩

theorem length_line_pos (value : UInt8) : 0 < (line value).length := by
  rw [line, List.length_append]
  exact Nat.succ_pos _

end Output

namespace Computer

open Output

variable {c d : Computer}

def confined (c : Computer) (room : Nat) : Computer :=
  { c with output := .lines "" (some room) }

def collecting (c : Computer) : Computer :=
  { c with output := .values #[] }

/-- Computers of which one prints lines and the other has collected the same values. -/
structure Twins (c d : Computer) : Prop where
  machine : d.machine = c.machine
  stepLimit : d.stepLimit = c.stepLimit
  output : ∃ bytes room, d.output = .values bytes ∧ c.output = .lines (values bytes).text room

/-- As long as every line fits, lines and values are printed in lockstep. -/
theorem simulation_twins : Simulation (fun e ↦ e.step.result ≠ .error .output) Twins where
  machine h := h.machine
  stepLimit h := h.stepLimit
  step := by
    intro c d h hfits
    obtain ⟨bytes, room, hd, hc⟩ := h.output
    have hok (value : UInt8) (hv : c.machine.printing? = some value) :
        (c.output.print value).isOk := by
      by_contra hno
      exact hfits ((step_of_printing hv).1.trans (if_neg hno))
    have htakes (value : UInt8) : (d.output.print value).isOk := by
      rw [hd]
      rfl
    obtain ⟨hresult, hm⟩ := step_congr h.machine fun value hv ↦ by rw [htakes, hok value hv]
    refine ⟨hresult, hm, ?_, ?_⟩
    · rw [stepLimit_step, stepLimit_step, h.stepLimit]
    · rw [offer_step, offer_step, h.machine]
      cases hv : c.machine.printing? with
      | none => exact ⟨bytes, room, hd, hc⟩
      | some value =>
        have hfit := hok value hv
        rw [hc] at hfit ⊢
        obtain ⟨left, hp⟩ := print_lines_of_isOk hfit
        exact ⟨bytes.push value, left, congrArg (Output.offer · (some value)) hd, offer_of_ok hp⟩
  marked h _ _ _ _ := ⟨h.machine, h.stepLimit, h.output⟩
  withMachine h _ := ⟨rfl, h.stepLimit, h.output⟩

section

variable {room : Nat} {es es' : List Computer} {e f : Computer} {value : UInt8}

/-- What stands in the output: of all lines that were to be written, those that fit, and the
beginning of the one that did not. -/
theorem output_of_trail {w : Evidence} (h : Trail (c.confined room).evidence es w) :
    w.output = .lines (String.ofList ((written (printed es)).take room))
      (some (room - (written (printed es)).length)) := by
  have hc : (c.confined room).evidence.output = .lines "" (some room) := rfl
  rw [h.output, hc, offers_lines, String.empty_append]

theorem result_of_trail (h : Trail (c.confined room).evidence es e.evidence)
    (hv : e.machine.printing? = some value) :
    e.step.result =
      if (written (printed es)).length + (line value).length ≤ room then .ok true
      else .error .output := by
  have ho : e.output = _ := output_of_trail h
  have hpos := length_line_pos value
  rw [(step_of_printing hv).1, ho]
  refine if_congr ?_ rfl rfl
  rw [isOk_print_lines]
  omega

theorem result_of_failed (h : Trail (c.confined room).evidence (es ++ e :: es') f.evidence)
    (he : e.step.result = .error .output) (hv : f.machine.printing? = some value) :
    f.step.result = .error .output := by
  cases hp : e.machine.printing? with
  | none => exact absurd he (step_of_not_printing hp).2
  | some first =>
    have hfull : ¬ (written (printed es)).length + (line first).length ≤ room := by
      intro hle
      rw [result_of_trail h.before hp, if_pos hle] at he
      cases he
    have hprinted : printed (e :: es') = first :: printed es' := List.filterMap_cons_some hp
    rw [result_of_trail h hv, printed_append, hprinted, written_append, written, written,
      List.flatMap_cons, List.length_append, List.length_append, ← written, if_neg (by omega)]

end

/-- Printing lines under a limit. Whatever calls are made on a computer whose output has room for
some bytes, the output holds just these bytes of the lines of all values that were to be printed, at
the end as before every step. A value is printed if its whole line fits, and behind the first that
fails no other is. As long as none fails, a computer that collects the values answers alike and has
the same machine, after the calls and after any number of steps that follow, and the text is made of
the lines of the values collected, which can be read back from it. -/
theorem confined_session (c : Computer) (room : Nat) {calls : List Call}
    {replies : List (Except Fault Reply)}
    (hs : (c.confined room).session calls = some (replies, d)) :
    (d.output.text =
        String.ofList ((written (printed ((c.confined room).trials calls))).take room) ∧
      d.output.text.utf8ByteSize =
        min room (written (printed ((c.confined room).trials calls))).length) ∧
    (∀ before e after, (c.confined room).trials calls = before ++ e :: after →
      e.output.text = String.ofList ((written (printed before)).take room) ∧
      (∀ value, e.machine.printing? = some value →
        e.step.result =
          if (written (printed before)).length + (line value).length ≤ room then .ok true
          else .error .output) ∧
      (e.step.result = .error .output →
        ∀ f ∈ after, ∀ value, f.machine.printing? = some value →
          f.step.result = .error .output)) ∧
    ((∀ e ∈ (c.confined room).trials calls, e.step.result ≠ .error .output) →
      ∃ d', c.collecting.session calls = some (replies, d') ∧
        ∀ n, (∀ k < n, d.answer k ≠ .error .output) →
          (d'.after n).machine = (d.after n).machine ∧ (∀ k < n, d'.answer k = d.answer k) ∧
          ∃ bytes, (d'.after n).output = .values bytes ∧
            (d.after n).output.text = String.ofList (written bytes.toList) ∧
            recover (d.after n).output.text = some bytes.toList) := by
  have ht : Trail (c.confined room).evidence _ d.evidence := trail_of_session hs
  have ho : d.output = _ := output_of_trail ht
  refine ⟨?_, fun before e after hb ↦ ?_, fun hfits ↦ ?_⟩
  · rw [ho]
    refine ⟨rfl, ?_⟩
    rw [Output.text, utf8ByteSize_ofList fun c hc ↦ ?_, List.length_take]
    obtain ⟨value, -, hc⟩ := List.mem_flatMap.mp (List.mem_of_mem_take hc)
    exact utf8Size_line value c hc
  · rw [hb] at ht
    have hoe : e.output = _ := output_of_trail ht.before
    refine ⟨by rw [hoe]; rfl, fun value hv ↦ result_of_trail ht.before hv,
      fun he f hf value hv ↦ ?_⟩
    obtain ⟨middle, rest, rfl⟩ := List.append_of_mem hf
    rw [← List.cons_append, ← List.append_assoc] at ht
    exact result_of_failed ht.before he hv
  · have hstart : Twins (c.confined room) c.collecting := ⟨rfl, rfl, #[], some room, rfl, rfl⟩
    obtain ⟨d', hs', htwins, -⟩ := simulation_twins.session hstart hs hfits
    refine ⟨d', hs', fun n hn ↦ ?_⟩
    have hafter := simulation_twins.after htwins hn
    obtain ⟨bytes, left, hbytes, hlines⟩ := hafter.output
    have htext : (d.after n).output.text = String.ofList (written bytes.toList) := by
      rw [hlines]
      rfl
    refine ⟨hafter.machine, fun k hk ↦ ?_, bytes, hbytes, htext, ?_⟩
    · exact simulation_twins.answer htwins fun j hj ↦ hn j (by omega)
    · rw [htext, recover_written]

/-- There is room for the digits of a line but not for its end, and the line is tried twice. -/
theorem confined_session_printing :
    ∃ replies d e f,
      (printing.confined 2).session [.step, .combine .add 0 0, .step, .step] =
        some (replies, d) ∧
      (printing.confined 2).trials [.step, .combine .add 0 0, .step, .step] =
        [printing.confined 2, e, f] ∧
      d.output.text = "14" ∧ e.output.text = "" ∧ e.step.result = .error .output ∧
      f.step.result = .error .output ∧
      ∃ answers m m', (printing.confined 2).session [.step, .combine .add 0 0] =
          some (answers, m) ∧
        printing.collecting.session [.step, .combine .add 0 0] = some (answers, m') ∧
        m'.machine = m.machine := by
  obtain ⟨replies, d, hs⟩ : ∃ replies d,
      (printing.confined 2).session [.step, .combine .add 0 0, .step, .step] =
        some (replies, d) := ⟨_, _, rfl⟩
  obtain ⟨e, f, ht, he, hf⟩ : ∃ e f,
      (printing.confined 2).trials [.step, .combine .add 0 0, .step, .step] =
        [printing.confined 2, e, f] ∧
      e.machine.printing? = some 14 ∧ f.machine.printing? = some 14 := ⟨_, _, rfl, rfl, rfl⟩
  obtain ⟨answers, m, hm⟩ : ∃ answers m,
      (printing.confined 2).session [.step, .combine .add 0 0] = some (answers, m) := ⟨_, _, rfl⟩
  have hfits : ∀ e ∈ (printing.confined 2).trials [.step, .combine .add 0 0],
      e.step.result ≠ .error .output := by
    refine List.forall_mem_singleton.mpr ?_
    rw [show (printing.confined 2).step.result = .ok true from rfl]
    nofun
  obtain ⟨⟨htext, -⟩, htried, -⟩ := confined_session printing 2 hs
  obtain ⟨hempty, hresult, hlater⟩ := htried [printing.confined 2] e [f] ht
  have hfails : e.step.result = .error .output := hresult 14 he
  obtain ⟨m', hm', hsame⟩ := (confined_session printing 2 hm).2.2 hfits
  exact ⟨replies, d, e, f, hs, ht, htext, hempty, hfails, hlater hfails f List.mem_cons_self 14 hf,
    answers, m, m', hm, hm', (hsame 0 nofun).1⟩

end Computer

end ByteMachine
