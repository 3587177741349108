import ByteMachine.Listing
import ByteMachine.Proofs.Answers
import ByteMachine.Proofs.AssemblyLanguage

namespace ByteMachine.Listing

open Text
open Assembly (LineEnd)

def IsLiteral (piece : List Char) : Prop :=
  piece.length = 8 ∧ ∀ c ∈ piece, c = '0' ∨ c = '1'

instance (piece : List Char) : Decidable (IsLiteral piece) :=
  have := List.decidableBAll (fun c ↦ c = '0' ∨ c = '1') piece
  instDecidableAnd

/-- What may be left of a line: nothing, or a literal. -/
def Accepted (piece : List Char) : Prop :=
  piece = [] ∨ IsLiteral piece

instance (piece : List Char) : Decidable (Accepted piece) :=
  inferInstanceAs (Decidable (piece = [] ∨ IsLiteral piece))

def contents (source : List Char) : List (List Char) :=
  (lines source).map content

section

variable {piece : List Char} {byte : UInt8}

theorem foldl_digits {digits : List Nat} (h : List.Forall₂ (Numeral.IsDigit 2) piece digits)
    (value : Nat) :
    piece.foldl (fun value c ↦ 2 * value + if c = '1' then 1 else 0) (UInt8.ofNat value) =
      UInt8.ofNat (value * 2 ^ digits.length + Nat.ofDigits 2 digits.reverse) := by
  induction h generalizing value with
  | nil => simp
  | @cons c d piece digits hc _ ih =>
    have hd : (if c = '1' then 1 else 0 : UInt8) = UInt8.ofNat d := by
      apply hc.elim
      decide
    have hvalue : 2 * UInt8.ofNat value + UInt8.ofNat d = UInt8.ofNat (value * 2 + d) := by
      rw [Nat.mul_comm, UInt8.ofNat_add, UInt8.ofNat_mul]
      rfl
    rw [List.foldl_cons, hd, hvalue, ih, Numeral.ofDigits_cons_reverse]

theorem denotes_of_binary (hne : piece ≠ []) (h : ∀ c ∈ piece, c = '0' ∨ c = '1') :
    ∃ n, Numeral.Denotes 2 piece n := by
  refine ⟨_, hne, piece.map fun c ↦ if c = '1' then 1 else 0, ?_, rfl⟩
  rw [List.forall₂_map_right_iff, List.forall₂_same]
  intro c hc
  obtain rfl | rfl := h c hc
  · exact ⟨by decide, .inl rfl⟩
  · exact ⟨by decide, .inl rfl⟩

theorem literal?_of_isLiteral (h : IsLiteral piece) :
    ∃ byte, literal? piece = some byte ∧ Numeral.Denotes 2 piece byte.toNat := by
  obtain ⟨hlen, hall⟩ := h
  obtain ⟨n, hn⟩ := denotes_of_binary (by rintro rfl; cases hlen) hall
  have hlt : n < 256 := by simpa [hlen] using hn.lt_pow (by decide)
  refine ⟨UInt8.ofNat n, ?_, by rwa [UInt8.toNat_ofNat_of_lt' hlt]⟩
  rw [literal?, if_pos ⟨hlen, by simpa using hall⟩]
  obtain ⟨-, digits, hd, rfl⟩ := hn
  simpa using foldl_digits hd 0

theorem literal?_of_not_isLiteral (h : ¬ IsLiteral piece) : literal? piece = none := by
  rw [literal?, if_neg]
  rintro ⟨hlen, hall⟩
  exact h ⟨hlen, by simpa using hall⟩

theorem literal?_of_denotes (h : IsLiteral piece) (hd : Numeral.Denotes 2 piece byte.toNat) :
    literal? piece = some byte := by
  obtain ⟨other, hl, ho⟩ := literal?_of_isLiteral h
  have hb := Numeral.read_of_denotes (by decide) hd (Nat.le_of_lt_succ byte.toNat_lt)
  have hr := Numeral.read_of_denotes (by decide) ho (Nat.le_of_lt_succ other.toNat_lt)
  rw [hb] at hr
  rw [hl, UInt8.toNat_inj.mp (Except.ok.inj hr)]

theorem isLiteral_write (byte : UInt8) : IsLiteral (Numeral.write 2 8 byte.toNat) := by
  constructor
  · have hle : (Nat.toDigits 2 byte.toNat).length ≤ 8 :=
      (Nat.length_toDigits_le_iff (by decide) (by decide)).mpr byte.toNat_lt
    rw [Numeral.write, List.length_leftpad, Nat.max_eq_left hle]
  · refine Numeral.forall_of_denotes (fun c d hc ↦ ?_) (Numeral.denotes_write (by decide) 8 _)
    apply hc.elim
    decide

end

section

variable {source : List Char}

def flaw? (line : List Char × Nat) : Option ProgramError :=
  if Accepted (content line.1) then none
  else some (.invalidLiteral line.2 (String.ofList (content line.1)))

theorem readLine_eq (line : List Char) (number : Nat) :
    readLine line number = (flaw? (line, number)).elim (.ok (literal? (content line))) .error := by
  rw [readLine, flaw?]
  dsimp only
  cases content line with
  | nil => rfl
  | cons c rest =>
    dsimp only
    by_cases hl : IsLiteral (c :: rest)
    · obtain ⟨byte, hb, -⟩ := literal?_of_isLiteral hl
      rw [if_pos (.inr hl), hb]
      rfl
    · have hn : ¬ Accepted (c :: rest) := not_or_intro nofun hl
      rw [if_neg hn, literal?_of_not_isLiteral hl]
      rfl

theorem read_eq (source : List Char) :
    read source = (((lines source).zipIdx 1).findSome? flaw?).elim
      (.ok ((contents source).filterMap literal?)) .error := by
  have hmap : ((lines source).zipIdx 1).map (fun line ↦ literal? (content line.1)) =
      (contents source).map literal? := by
    conv_rhs => rw [contents, ← List.zipIdx_map_fst 1 (lines source), List.map_map, List.map_map]
    rfl
  have hline : ∀ line ∈ (lines source).zipIdx 1, readLine line.1 line.2 =
      (flaw? line).elim (.ok (literal? (content line.1))) .error :=
    fun line _ ↦ readLine_eq line.1 line.2
  rw [read, mapM_eq_elim_findSome? hline, hmap]
  cases ((lines source).zipIdx 1).findSome? flaw? with
  | some error => rfl
  | none =>
    have hid : ((contents source).map literal?).filterMap id =
        (contents source).filterMap literal? := List.filterMap_map
    exact congrArg Except.ok hid

theorem findSome?_flaw? {texts : List (List Char)} (h : ∀ text ∈ texts, Accepted (content text))
    (number : Nat) : (texts.zipIdx number).findSome? flaw? = none := by
  rw [List.findSome?_eq_none_iff]
  intro line hm
  exact if_pos (h line.1 (List.fst_mem_of_mem_zipIdx hm))

theorem read_of_accepted (h : ∀ piece ∈ contents source, Accepted piece) :
    read source = .ok ((contents source).filterMap literal?) := by
  rw [read_eq, findSome?_flaw? fun text hm ↦ h _ (List.mem_map_of_mem hm)]
  rfl

theorem read_of_flaw {before after : List (List Char)} {piece : List Char}
    (hs : contents source = before ++ piece :: after) (hb : ∀ p ∈ before, Accepted p)
    (hp : ¬ Accepted piece) :
    read source = .error (.invalidLiteral (before.length + 1) (String.ofList piece)) := by
  obtain ⟨first, rest, hl, rfl, hr⟩ := List.map_eq_append_iff.mp hs
  obtain ⟨line, last, rfl, rfl, rfl⟩ := List.map_eq_cons_iff.mp hr
  rw [read_eq, hl, List.zipIdx_append, List.findSome?_append,
    findSome?_flaw? fun text hm ↦ hb _ (List.mem_map_of_mem hm), List.zipIdx_cons,
    List.findSome?_cons_of_isSome, flaw?, if_neg hp, List.length_map, Nat.add_comm]
  · rfl
  · rw [flaw?, if_neg hp]
    rfl

theorem error_of_read {e : ProgramError} (h : read source = .error e) :
    ∃ line text, e = .invalidLiteral line text := by
  rw [read_eq] at h
  cases hf : ((lines source).zipIdx 1).findSome? flaw? with
  | none =>
    rw [hf] at h
    cases h
  | some other =>
    rw [hf] at h
    cases h
    obtain ⟨line, -, hline⟩ := List.exists_of_findSome?_eq_some hf
    rw [flaw?] at hline
    split at hline
    · cases hline
    · cases hline
      exact ⟨_, _, rfl⟩

theorem accepted_of_read {bytes : List UInt8} (h : read source = .ok bytes) :
    ∀ piece ∈ contents source, Accepted piece := by
  rw [read_eq] at h
  cases hf : ((lines source).zipIdx 1).findSome? flaw? with
  | some error =>
    rw [hf] at h
    cases h
  | none =>
    intro piece hp
    obtain ⟨text, ht, rfl⟩ := List.mem_map.mp hp
    rw [← List.zipIdx_map_fst 1 (lines source)] at ht
    obtain ⟨line, hl, rfl⟩ := List.mem_map.mp ht
    by_contra hn
    have hflaw : flaw? line = none := List.findSome?_eq_none_iff.mp hf line hl
    rw [flaw?, if_neg hn] at hflaw
    cases hflaw

theorem denotes_of_accepted {pieces : List (List Char)} (h : ∀ piece ∈ pieces, Accepted piece) :
    List.Forall₂ (fun piece byte ↦ Numeral.Denotes 2 piece byte.toNat) (pieces.filter (· ≠ []))
      (pieces.filterMap literal?) := by
  induction pieces with
  | nil => exact .nil
  | cons piece pieces ih =>
    obtain ⟨hp, hps⟩ := List.forall_mem_cons.mp h
    obtain rfl | hl := hp
    · exact ih hps
    · obtain ⟨byte, hb, hd⟩ := literal?_of_isLiteral hl
      rw [List.filter_cons_of_pos (by simpa using hd.1), List.filterMap_cons_some hb]
      exact .cons hd (ih hps)

end

inductive Remark : List Char → Prop
  | none : Remark []
  | some {text : List Char} (ht : '\n' ∉ text) : Remark ('#' :: text)

def digits (byte? : Option UInt8) : List Char :=
  byte?.elim [] fun byte ↦ Numeral.write 2 8 byte.toNat

inductive LineWritten (byte? : Option UInt8) : List Char → Prop
  | line {before after remark : List Char} (hb : Blanks before) (ha : Blanks after)
      (hr : Remark remark) : LineWritten byte? (before ++ digits byte? ++ after ++ remark)

/-- A program: each byte on a line of its own, with lines without a byte among them. The last line
may have no end. -/
inductive Written : List UInt8 → List Char → Prop
  | last {byte? : Option UInt8} {text : List Char} (ht : LineWritten byte? text) :
      Written byte?.toList text
  | line {byte? : Option UInt8} {bytes : List UInt8} {text finish rest : List Char}
      (ht : LineWritten byte? text) (he : LineEnd finish) (hr : Written bytes rest) :
      Written (byte?.toList ++ bytes) (text ++ finish ++ rest)

section

variable {byte? : Option UInt8} {text : List Char}

theorem accepted_digits (byte? : Option UInt8) : Accepted (digits byte?) := by
  cases byte? with
  | none => exact .inl rfl
  | some byte => exact .inr (isLiteral_write byte)

theorem literal?_digits (byte? : Option UInt8) : literal? (digits byte?) = byte? := by
  cases byte? with
  | none => rfl
  | some byte =>
    exact literal?_of_denotes (isLiteral_write byte) (Numeral.denotes_write (by decide) 8 _)

theorem binary_digits (byte? : Option UInt8) : ∀ c ∈ digits byte?, c = '0' ∨ c = '1' := by
  cases byte? with
  | none => nofun
  | some byte => exact (isLiteral_write byte).2

theorem tight_digits (byte? : Option UInt8) : Tight (digits byte?) := by
  refine .of_forall fun c hc ↦ ?_
  obtain rfl | rfl := binary_digits byte? c hc <;> rfl

theorem ne_of_padded {before after : List Char} (hb : Blanks before) (ha : Blanks after) {c : Char}
    (hc : c ∈ before ++ digits byte? ++ after) : c ≠ '#' ∧ c ≠ '\n' := by
  have hblanks {blanks : List Char} (h : Blanks blanks) (hc : c ∈ blanks) :
      c ≠ '#' ∧ c ≠ '\n' := by
    refine ⟨?_, (h c hc).2⟩
    rintro rfl
    exact absurd (h '#' hc).1 (by decide)
  rw [List.mem_append, List.mem_append] at hc
  obtain (hc | hc) | hc := hc
  · exact hblanks hb hc
  · obtain rfl | rfl := binary_digits byte? c hc <;> decide
  · exact hblanks ha hc

theorem LineWritten.content (h : LineWritten byte? text) : content text = digits byte? := by
  obtain ⟨hb, ha, hr⟩ := h
  rw [Listing.content, takeWhile_append_of_head, trim_append hb (tight_digits byte?) ha]
  · intro c hc
    exact decide_eq_true (ne_of_padded hb ha hc).1
  · cases hr with
    | none => nofun
    | some ht =>
      intro c hc
      cases hc
      rfl

theorem LineWritten.not_mem (h : LineWritten byte? text) : '\n' ∉ text := by
  obtain ⟨hb, ha, hr⟩ := h
  intro hm
  obtain hm | hm := List.mem_append.mp hm
  · exact (ne_of_padded hb ha hm).2 rfl
  · cases hr with
    | none => cases hm
    | some ht => exact ht (List.mem_of_ne_of_mem (by decide) hm)

theorem LineWritten.append_return (h : LineWritten byte? text) :
    LineWritten byte? (text ++ ['\r']) := by
  cases h with
  | @line before after remark hb ha hr =>
    cases hr with
    | none =>
      simpa using LineWritten.line hb ha.append_return .none
    | @some text ht =>
      have hreturn : '\n' ∉ text ++ ['\r'] := by simpa using ht
      simpa using LineWritten.line hb ha (.some hreturn)

theorem read_line_of_written (h : LineWritten byte? text) :
    Accepted (Listing.content text) ∧ literal? (Listing.content text) = byte? := by
  rw [h.content]
  exact ⟨accepted_digits byte?, literal?_digits byte?⟩

theorem contents_of_written {bytes : List UInt8} (h : Written bytes text) :
    (∀ piece ∈ contents text, Accepted piece) ∧ (contents text).filterMap literal? = bytes := by
  induction h with
  | @last byte? text ht =>
    obtain ⟨ha, hl⟩ := read_line_of_written ht
    by_cases hne : text = []
    -- An empty text has no lines, and no byte is written in it.
    · subst hne
      exact ⟨nofun, congrArg Option.toList hl⟩
    · rw [contents, Text.lines, pieces_of_not_mem ht.not_mem hne, List.map_singleton]
      refine ⟨List.forall_mem_singleton.mpr ha, ?_⟩
      rw [← hl, List.filterMap_cons]
      cases literal? (Listing.content text) <;> rfl
  | @line byte? bytes text finish rest ht he _ ih =>
    obtain ⟨hall, hbytes⟩ := ih
    obtain ⟨line, hline, hs⟩ := he.lines (fun _ h ↦ h.not_mem) (fun _ h ↦ h.append_return) ht rest
    obtain ⟨ha, hl⟩ := read_line_of_written hline
    rw [contents, hs, List.map_cons, List.filterMap_cons, hl]
    refine ⟨List.forall_mem_cons.mpr ⟨ha, hall⟩, ?_⟩
    cases byte? with
    | none => exact hbytes
    | some byte => exact congrArg _ hbytes

theorem read_of_written {bytes : List UInt8} (h : Written bytes text) : read text = .ok bytes := by
  obtain ⟨ha, hbytes⟩ := contents_of_written h
  rw [read_of_accepted ha, hbytes]

end

/-- The format of listings. A text is read if what is left of each line, without its comment and the
blanks around it, is nothing or eight binary digits, and then the bytes are what the digits denote,
in order. Otherwise the error names the first other line, by its number and by what is left of it,
whatever stands behind it. However a program is written as a listing, it is read back. -/
theorem read_exactly (source : List Char) :
    (∀ log, (load source log).1 = read source) ∧
    ((∃ bytes, read source = .ok bytes) ↔ ∀ piece ∈ contents source, Accepted piece) ∧
    (∀ bytes, read source = .ok bytes →
      List.Forall₂ (fun piece byte ↦ Numeral.Denotes 2 piece byte.toNat)
        ((contents source).filter (· ≠ [])) bytes) ∧
    (∀ before piece after, contents source = before ++ piece :: after →
      (∀ p ∈ before, Accepted p) → ¬ Accepted piece →
        read source = .error (.invalidLiteral (before.length + 1) (String.ofList piece))) ∧
    ∀ bytes, Written bytes source → read source = .ok bytes := by
  refine ⟨fun log ↦ ?_, ⟨fun ⟨bytes, h⟩ ↦ accepted_of_read h, fun h ↦ ⟨_, read_of_accepted h⟩⟩,
    fun bytes h ↦ ?_, fun before piece after hs hb hp ↦ read_of_flaw hs hb hp, fun bytes h ↦ ?_⟩
  · rw [load]
    cases read source <;> rfl
  · have ha := accepted_of_read h
    cases (read_of_accepted ha).symm.trans h
    exact denotes_of_accepted ha
  · obtain ⟨ha, hbytes⟩ := contents_of_written h
    rw [read_of_accepted ha, hbytes]

/-- Bytes with blanks, a remark, an empty line and both line ends, and a text that goes wrong. -/
theorem read_exactly_remarked :
    Written [0x82, 0x01] " 10000010\t# LDI\r\n\n00000001".toList ∧
    read " 10000010\t# LDI\r\n\n00000001".toList = .ok [0x82, 0x01] ∧
    read "00000001\n 0000000x # HLT\n2".toList = .error (.invalidLiteral 2 "0000000x") := by
  have hremark : Remark ['#', ' ', 'L', 'D', 'I'] := .some (by decide)
  have hfirst : LineWritten (some 0x82) " 10000010\t# LDI".toList :=
    @LineWritten.line (some 0x82) [' '] ['\t'] _ (by decide) (by decide) hremark
  have hsecond : LineWritten none [] := @LineWritten.line none [] [] [] .nil .nil .none
  have hlast : LineWritten (some 0x01) "00000001".toList :=
    @LineWritten.line (some 0x01) [] [] [] .nil .nil .none
  have hw : Written [0x82, 0x01] " 10000010\t# LDI\r\n\n00000001".toList :=
    .line hfirst .returnFeed (.line hsecond .feed (.last hlast))
  have hcontents : contents "00000001\n 0000000x # HLT\n2".toList =
      ["00000001".toList] ++ "0000000x".toList :: ["2".toList] := by decide +kernel
  refine ⟨hw, (read_exactly _).2.2.2.2 _ hw, ?_⟩
  exact (read_exactly _).2.2.2.1 _ _ _ hcontents (by decide +kernel) (by decide +kernel)

end ByteMachine.Listing
