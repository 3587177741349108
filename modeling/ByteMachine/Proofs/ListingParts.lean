import ByteMachine.Proofs.Listings
import ByteMachine.Proofs.Rows

namespace ByteMachine.Listing

open Text

def readRows (number : Nat) (rows : List (List Char)) : Except ProgramError (List UInt8) :=
  ((rows.zipIdx number).findSome? flaw?).elim (.ok ((rows.map content).filterMap literal?)) .error

/-- Texts that are read one by one. The bytes of all of them are the answer, or else the error of
the first that fails; it counts lines from the first text on, of which `feeds` were closed before.
-/
def readEach (feeds : Nat) : List (List Char) → Except ProgramError (List UInt8)
  | [] => .ok []
  | text :: texts =>
    match read text with
    | .ok bytes => (readEach (feeds + text.count '\n' + 1) texts).map (bytes ++ ·)
    | .error e => .error (e.renumber (· + feeds))

variable {text : List Char} {texts : List (List Char)} {number feeds : Nat}

theorem read_eq_readRows (source : List Char) :
    read source = readRows 1 (source.splitOn '\n') := by
  obtain ⟨n, hn⟩ := splitOn_eq_pieces_append '\n' source
  have hflaw : ∀ number, ((List.replicate n []).zipIdx number).findSome? flaw? = none := by
    refine findSome?_flaw? fun row hrow ↦ ?_
    rw [List.eq_of_mem_replicate hrow]
    exact .inl rfl
  have hliteral : ((List.replicate n []).map content).filterMap literal? = [] := by
    rw [List.map_replicate, List.filterMap_replicate_of_none]
    rfl
  rw [read_eq, readRows, hn, List.zipIdx_append, List.findSome?_append, hflaw, Option.or_none,
    List.map_append, List.filterMap_append, hliteral, List.append_nil]
  rfl

theorem readRows_append (number : Nat) (rows others : List (List Char)) :
    readRows number (rows ++ others) =
      match readRows number rows with
      | .ok bytes => (readRows (number + rows.length) others).map (bytes ++ ·)
      | .error e => .error e := by
  rw [readRows, readRows, readRows, List.zipIdx_append, List.findSome?_append, List.map_append,
    List.filterMap_append]
  cases (rows.zipIdx number).findSome? flaw? with
  | some e => rfl
  | none => cases (others.zipIdx (number + rows.length)).findSome? flaw? <;> rfl

theorem readRows_add (number n : Nat) (rows : List (List Char)) :
    readRows (n + number) rows = (readRows number rows).mapError (·.renumber (· + n)) := by
  have hflaw : flaw? ∘ Prod.map id (· + n) = Option.map (·.renumber (· + n)) ∘ flaw? := by
    funext line
    rw [Function.comp_apply, Function.comp_apply, flaw?, flaw?]
    dsimp only [Prod.map_fst, Prod.map_snd, id]
    split <;> rfl
  rw [readRows, readRows, ← List.map_snd_add_zipIdx_eq_zipIdx, List.findSome?_map, hflaw,
    ← List.map_findSome?]
  cases (rows.zipIdx number).findSome? flaw? <;> rfl

theorem readRows_of_text (feeds : Nat) (text : List Char) :
    readRows (feeds + 1) (text.splitOn '\n') = (read text).mapError (·.renumber (· + feeds)) := by
  rw [readRows_add, read_eq_readRows]

/-- The run lemma of reading in parts, by induction on the texts. -/
theorem readRows_intercalate (h : texts ≠ []) (feeds : Nat) :
    readRows (feeds + 1) ((['\n'].intercalate texts).splitOn '\n') = readEach feeds texts := by
  induction texts generalizing feeds with
  | nil => exact absurd rfl h
  | cons text texts ih =>
    rw [readEach]
    cases texts with
    | nil =>
      rw [List.intercalate_singleton, readRows_of_text]
      cases read text with
      | error e => rfl
      | ok bytes => exact congrArg Except.ok (List.append_nil bytes).symm
    | cons other texts =>
      have hlines : feeds + 1 + (text.splitOn '\n').length = feeds + text.count '\n' + 1 + 1 := by
        rw [length_splitOn]
        omega
      rw [List.intercalate_cons_cons, List.append_assoc, List.singleton_append,
        List.splitOn_append_cons_self, readRows_append, readRows_of_text, hlines,
        ih (List.cons_ne_nil other texts)]
      cases read text <;> rfl

theorem read_intercalate (h : texts ≠ []) :
    read (['\n'].intercalate texts) = readEach 0 texts := by
  rw [read_eq_readRows, ← readRows_intercalate h 0]

theorem readEach_of_ok {programs : List (List UInt8)}
    (h : List.Forall₂ (fun text bytes ↦ read text = .ok bytes) texts programs) (feeds : Nat) :
    readEach feeds texts = .ok programs.flatten := by
  induction h generalizing feeds with
  | nil => rfl
  | cons ht _ ih =>
    rw [readEach, ht]
    dsimp only
    rw [ih]
    rfl

theorem readEach_of_error {before after : List (List Char)} {e : ProgramError}
    (hb : ∀ text ∈ before, ∃ bytes, read text = .ok bytes) (he : read text = .error e)
    (feeds : Nat) :
    readEach feeds (before ++ text :: after) =
      .error (e.renumber (· + (feeds + (before.flatMap (· ++ ['\n'])).count '\n'))) := by
  induction before generalizing feeds with
  | nil =>
    rw [List.nil_append, readEach, he]
    rfl
  | cons other before ih =>
    obtain ⟨⟨bytes, ho⟩, hb⟩ := List.forall_mem_cons.mp hb
    have hfeeds : feeds + ((other :: before).flatMap (· ++ ['\n'])).count '\n' =
        feeds + other.count '\n' + 1 + (before.flatMap (· ++ ['\n'])).count '\n' := by
      rw [List.flatMap_cons, List.count_append, List.count_append, List.count_singleton_self]
      omega
    rw [List.cons_append, readEach, ho]
    dsimp only
    rw [ih hb, hfeeds]
    rfl

theorem intercalate_eq_append (before after : List (List Char)) (text : List Char) :
    ∃ rest, ['\n'].intercalate (before ++ text :: after) =
      before.flatMap (· ++ ['\n']) ++ text ++ rest := by
  induction before with
  | nil =>
    cases after with
    | nil => exact ⟨[], by simp⟩
    | cons other after => exact ⟨'\n' :: ['\n'].intercalate (other :: after), by simp⟩
  | cons first before ih =>
    obtain ⟨rest, hr⟩ := ih
    refine ⟨rest, ?_⟩
    obtain ⟨second, others, hs⟩ : ∃ second others, before ++ text :: after = second :: others :=
      List.exists_cons_of_ne_nil (by simp)
    rw [List.cons_append, hs, List.intercalate_cons_cons, ← hs, hr, List.flatMap_cons]
    simp only [List.append_assoc]

/-- A listing in parts. Texts that are joined by line feeds are read as they are read one by one: as
the bytes of all of them, or else with the error of the first that fails, which quotes what it
quotes and counts the line feeds before this text on top of its own lines. So it does not matter
into which texts a listing is cut. -/
theorem read_in_parts {texts : List (List Char)} (h : texts ≠ []) :
    (∀ programs, List.Forall₂ (fun text bytes ↦ read text = .ok bytes) texts programs →
      read (['\n'].intercalate texts) = .ok programs.flatten) ∧
    (∀ before text after e, texts = before ++ text :: after →
      (∀ other ∈ before, ∃ bytes, read other = .ok bytes) → read text = .error e →
        ∃ front rest line quoted, ['\n'].intercalate texts = front ++ text ++ rest ∧
          front = before.flatMap (· ++ ['\n']) ∧ e = .invalidLiteral line quoted ∧
          read (['\n'].intercalate texts) =
            .error (.invalidLiteral (line + front.count '\n') quoted)) ∧
    read (['\n'].intercalate texts) = readEach 0 texts ∧
    ∀ others, others ≠ [] → ['\n'].intercalate others = ['\n'].intercalate texts →
      readEach 0 others = readEach 0 texts := by
  refine ⟨fun programs hall ↦ ?_, ?_, read_intercalate h, fun others ho hj ↦ ?_⟩
  · rw [read_intercalate h, readEach_of_ok hall]
  · rintro before text after e rfl hb he
    obtain ⟨rest, hr⟩ := intercalate_eq_append before after text
    obtain ⟨line, quoted, rfl⟩ := error_of_read he
    refine ⟨_, rest, line, quoted, hr, rfl, rfl, ?_⟩
    rw [read_intercalate h, readEach_of_error hb he, Nat.zero_add]
    rfl
  · rw [← read_intercalate ho, hj, read_intercalate h]

/-- A part that ends in a carriage return, an empty part, one with two line feeds and one that goes
wrong in its second line. -/
def parts : List (List Char) :=
  ["00000001\r".toList, [], "00000010\n\n".toList, "# HLT\n2".toList]

theorem read_in_parts_seams :
    parts ≠ [] ∧
      read (['\n'].intercalate (parts.take 3)) = .ok [1, 2] ∧
      read (['\n'].intercalate parts) = .error (.invalidLiteral 7 "2") := by
  have hreturn : read "00000001\r".toList = .ok [1] := by decide +kernel
  have hempty : read [] = .ok [] := rfl
  have hfeeds : read "00000010\n\n".toList = .ok [2] := by decide +kernel
  have hbad : read "# HLT\n2".toList = .error (.invalidLiteral 2 "2") := by decide +kernel
  have hbefore : ∀ other ∈ parts.take 3, ∃ bytes, read other = .ok bytes :=
    List.forall_mem_cons.mpr ⟨⟨_, hreturn⟩, List.forall_mem_cons.mpr ⟨⟨_, hempty⟩,
      List.forall_mem_singleton.mpr ⟨_, hfeeds⟩⟩⟩
  have htaken : parts.take 3 ≠ [] := by decide
  have hne : parts ≠ [] := by decide
  obtain ⟨hall, -⟩ := read_in_parts htaken
  obtain ⟨-, hfirst, -⟩ := read_in_parts hne
  obtain ⟨front, -, line, quoted, -, rfl, he, hread⟩ :=
    hfirst (parts.take 3) _ [] _ rfl hbefore hbad
  cases he
  exact ⟨hne, hall _ (.cons hreturn (.cons hempty (.cons hfeeds .nil))), hread⟩

end ByteMachine.Listing
