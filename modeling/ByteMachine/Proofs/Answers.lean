import Mathlib.Data.List.Forall2

namespace ByteMachine

variable {α β ε : Type}

theorem bind_eq_ok_iff {x : Except ε α} {f : α → Except ε β} {b : β} :
    x >>= f = .ok b ↔ ∃ a, x = .ok a ∧ f a = .ok b := by
  cases x with
  | error e => simp [bind, Except.bind]
  | ok a => simp [bind, Except.bind]

theorem bind_eq_error_iff {x : Except ε α} {f : α → Except ε β} {e : ε} :
    x >>= f = .error e ↔ x = .error e ∨ ∃ a, x = .ok a ∧ f a = .error e := by
  cases x with
  | error e => simp [bind, Except.bind]
  | ok a => simp [bind, Except.bind]

theorem guarded_eq_error_iff {p : Prop} [Decidable p] {f : p → α} {e fault : ε} :
    (if h : p then Except.ok (f h) else .error e) = .error fault ↔ ¬ p ∧ fault = e := by
  by_cases h : p
  · simp [h]
  · simp [h, eq_comm]

theorem mapM_eq_ok_iff {f : α → Except ε β} {as : List α} {bs : List β} :
    as.mapM f = .ok bs ↔ List.Forall₂ (fun a b ↦ f a = .ok b) as bs := by
  induction as generalizing bs with
  | nil =>
    rw [List.mapM_nil]
    constructor
    · intro h
      cases h
      exact .nil
    · intro h
      cases h
      rfl
  | cons a as ih =>
    rw [List.mapM_cons, bind_eq_ok_iff]
    constructor
    · intro h
      obtain ⟨b, hb, h⟩ := h
      obtain ⟨rest, hr, h⟩ := bind_eq_ok_iff.mp h
      cases h
      exact .cons hb (ih.mp hr)
    · intro h
      cases h with
      | @cons _ b _ rest hb hr => exact ⟨b, hb, bind_eq_ok_iff.mpr ⟨rest, ih.mpr hr, rfl⟩⟩

theorem mapM_eq_elim_findSome? {f : α → Except ε β} {fault? : α → Option ε} {g : α → β}
    {as : List α} (h : ∀ a ∈ as, f a = (fault? a).elim (.ok (g a)) .error) :
    as.mapM f = (as.findSome? fault?).elim (.ok (as.map g)) .error := by
  induction as with
  | nil => rfl
  | cons a as ih =>
    obtain ⟨ha, has⟩ := List.forall_mem_cons.mp h
    rw [List.mapM_cons, ha, ih has, List.findSome?_cons]
    cases fault? a with
    | some e => rfl
    | none =>
      dsimp only [Option.elim_none]
      cases as.findSome? fault? <;> rfl

def refusal? : Except ε α → Option ε
  | .ok _ => none
  | .error e => some e

theorem refusal?_eq_some_iff {x : Except ε α} {e : ε} : refusal? x = some e ↔ x = .error e := by
  cases x with
  | error other => simp [refusal?]
  | ok a => simp [refusal?]

theorem refusal?_eq_none_iff {x : Except ε α} : refusal? x = none ↔ ∃ a, x = .ok a := by
  cases x with
  | error e => simp [refusal?]
  | ok a => simp [refusal?]

theorem refusal?_bind_ok (x : Except ε α) (g : α → β) :
    refusal? (x >>= fun a ↦ .ok (g a)) = refusal? x := by
  cases x <;> rfl

theorem refusal?_mapM (f : α → Except ε β) (as : List α) :
    refusal? (as.mapM f) = as.findSome? fun a ↦ refusal? (f a) := by
  induction as with
  | nil => rfl
  | cons a as ih =>
    rw [List.mapM_cons, List.findSome?_cons, ← ih]
    cases f a with
    | error e => rfl
    | ok b => cases as.mapM f <;> rfl

theorem foldlM_eq_error {f : β → α → Except ε β} {as : List α} {b : β} {e : ε}
    (h : as.foldlM f b = .error e) :
    ∃ before a after c, as = before ++ a :: after ∧ before.foldlM f b = .ok c ∧ f c a = .error e := by
  induction as generalizing b with
  | nil => cases h
  | cons a as ih =>
    rw [List.foldlM_cons] at h
    obtain ha | ⟨c, hc, h⟩ := bind_eq_error_iff.mp h
    · exact ⟨[], a, as, b, rfl, rfl, ha⟩
    · obtain ⟨before, other, after, d, rfl, hb, he⟩ := ih h
      refine ⟨a :: before, other, after, d, rfl, ?_, he⟩
      rw [List.foldlM_cons]
      exact bind_eq_ok_iff.mpr ⟨c, hc, hb⟩

def translate {γ δ : Type} (f : ε → δ) (g : α → γ) : Except ε α → Except δ γ
  | .ok a => .ok (g a)
  | .error e => .error (f e)

section

variable {γ δ η : Type} {f : ε → δ} {g : α → γ}

theorem translate_id (f : ε → δ) (x : Except ε α) : translate f id x = x.mapError f := by
  cases x <;> rfl

theorem translate_eq_ok_iff {x : Except ε α} {c : γ} :
    translate f g x = .ok c ↔ ∃ a, x = .ok a ∧ g a = c := by
  cases x with
  | ok a => simp [translate]
  | error e => simp [translate]

theorem translate_bind {h : β → η} {k : α → Except ε β} {l : γ → Except δ η}
    (hk : ∀ a, l (g a) = translate f h (k a)) (x : Except ε α) :
    translate f g x >>= l = translate f h (x >>= k) := by
  cases x with
  | ok a => exact hk a
  | error e => rfl

theorem foldlM_translate {k : α → β → Except ε α} {l : γ → β → Except δ γ}
    (hk : ∀ a b, l (g a) b = translate f g (k a b)) (bs : List β) (a : α) :
    bs.foldlM l (g a) = translate f g (bs.foldlM k a) := by
  induction bs generalizing a with
  | nil => rfl
  | cons b bs ih =>
    rw [List.foldlM_cons, List.foldlM_cons, hk]
    exact translate_bind ih (k a b)

theorem mapM_translate {p : β → η} {k : β → Except ε α} {l : η → Except δ γ}
    (hk : ∀ b, l (p b) = translate f g (k b)) (bs : List β) :
    (bs.map p).mapM l = translate f (List.map g) (bs.mapM k) := by
  induction bs with
  | nil => rfl
  | cons b bs ih =>
    rw [List.map_cons, List.mapM_cons, List.mapM_cons, hk, ih]
    cases k b with
    | error e => rfl
    | ok a => cases bs.mapM k <;> rfl

end

theorem mapM_eq_some_map {f : α → Option β} {g : α → β} {as : List α}
    (h : ∀ a ∈ as, f a = some (g a)) : as.mapM f = some (as.map g) := by
  induction as with
  | nil => rfl
  | cons a as ih =>
    obtain ⟨ha, has⟩ := List.forall_mem_cons.mp h
    rw [List.mapM_cons, ha, ih has]
    rfl

theorem getElem?_of_forall₂ {R : α → β → Prop} {as : List α} {bs : List β}
    (h : List.Forall₂ R as bs) {j : Nat} {a : α} (ha : as[j]? = some a) :
    ∃ b, bs[j]? = some b ∧ R a b := by
  induction h generalizing j with
  | nil => cases ha
  | @cons c b as bs hr _ ih =>
    cases j with
    | zero =>
      cases ha
      exact ⟨b, rfl, hr⟩
    | succ j => exact ih ha

theorem rel_imp {R S : α → β → Prop} {a? : Option α} {b? : Option β} (h : Option.Rel R a? b?)
    (hi : ∀ a b, R a b → S a b) : Option.Rel S a? b? := by
  cases h with
  | none => exact .none
  | some hr => exact .some (hi _ _ hr)

theorem rel_map {γ δ : Type} {R : α → β → Prop} {S : γ → δ → Prop} {f : α → γ} {g : β → δ}
    {a? : Option α} {b? : Option β} (h : Option.Rel R a? b?)
    (hm : ∀ a b, a? = some a → b? = some b → R a b → S (f a) (g b)) :
    Option.Rel S (a?.map f) (b?.map g) := by
  cases h with
  | none => exact .none
  | some hr => exact .some (hm _ _ rfl rfl hr)

end ByteMachine
