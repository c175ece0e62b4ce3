import Mathlib

/-! Words in one string, each closed by a letter that no word has, behind a first one. -/
namespace SecureChaincode

section
variable {α β : Type*}

/-- The words one after the other, each closed by `d`. -/
def closed (d : α) (ws : List (List α)) : List α := ws.flatMap (· ++ [d])

/-- The same behind a first `d`. -/
def delimited (d : α) (ws : List (List α)) : List α := d :: closed d ws

@[simp] theorem closed_nil (d : α) : closed d [] = [] := rfl

@[simp] theorem closed_cons (d : α) (w : List α) (ws : List (List α)) :
    closed d (w :: ws) = w ++ d :: closed d ws := by
  simp [closed]

theorem closed_append (d : α) (ws ws' : List (List α)) :
    closed d (ws ++ ws') = closed d ws ++ closed d ws' :=
  List.flatMap_append

theorem closed_eq_nil_iff {d : α} {ws : List (List α)} : closed d ws = [] ↔ ws = [] := by
  cases ws with
  | nil => simp
  | cons w ws => simp

theorem map_closed (f : α → β) (d : α) (ws : List (List α)) :
    (closed d ws).map f = closed (f d) (ws.map (List.map f)) := by
  induction ws with
  | nil => rfl
  | cons w ws ih => simp [ih]

theorem map_delimited (f : α → β) (d : α) (ws : List (List α)) :
    (delimited d ws).map f = delimited (f d) (ws.map (List.map f)) := by
  rw [delimited, List.map_cons, map_closed]
  rfl

theorem mem_delimited {d a : α} {ws : List (List α)} :
    a ∈ delimited d ws ↔ a = d ∨ ∃ w ∈ ws, a ∈ w := by
  simp only [delimited, closed, List.mem_cons, List.mem_flatMap, List.mem_append, List.not_mem_nil,
    or_false]
  constructor
  · rintro (h | ⟨w, hw, h | h⟩)
    · exact Or.inl h
    · exact Or.inr ⟨w, hw, h⟩
    · exact Or.inl h
  · rintro (h | ⟨w, hw, h⟩)
    · exact Or.inl h
    · exact Or.inr ⟨w, hw, Or.inl h⟩

theorem getLast?_delimited (d : α) (ws : List (List α)) : (delimited d ws).getLast? = some d := by
  rcases List.eq_nil_or_concat ws with rfl | ⟨ws, w, rfl⟩
  · rfl
  · rw [delimited, List.concat_eq_append, closed_append, closed_cons, closed_nil, ← List.append_assoc,
      ← List.cons_append, List.getLast?_concat]

/-- Between the first and the last `d` the words are joined by `d`. -/
theorem delimited_eq_intercalate (d : α) {ws : List (List α)} (hne : ws ≠ []) :
    delimited d ws = [d] ++ [d].intercalate ws ++ [d] := by
  obtain ⟨w, ws, rfl⟩ := List.exists_cons_of_ne_nil hne
  clear hne
  induction ws generalizing w with
  | nil => simp [delimited]
  | cons v ws ih =>
    have hrest := ih v
    rw [delimited, List.append_assoc, List.singleton_append, List.cons.injEq] at hrest
    rw [delimited, closed_cons, hrest.2, List.intercalate_cons_cons]
    simp

/-- Splitting at the delimiter gives the words back. -/
theorem splitOn_closed [BEq α] [LawfulBEq α] {d : α} {ws : List (List α)} (h : ∀ w ∈ ws, d ∉ w) :
    (closed d ws).splitOn d = ws ++ [[]] := by
  induction ws with
  | nil => rfl
  | cons w ws ih =>
    rw [closed_cons, List.splitOn_append_cons_self_of_not_mem (h w List.mem_cons_self),
      ih (fun w' hw => h w' (List.mem_cons_of_mem w hw))]
    rfl

theorem splitOn_delimited [BEq α] [LawfulBEq α] {d : α} {ws : List (List α)}
    (h : ∀ w ∈ ws, d ∉ w) : (delimited d ws).splitOn d = [] :: ws ++ [[]] := by
  have hfirst : delimited d ws = closed d ([] :: ws) := rfl
  rw [hfirst, splitOn_closed]
  intro w hw
  rcases List.mem_cons.mp hw with rfl | hw
  · exact List.not_mem_nil
  · exact h w hw

/-- A word before the first `d` is determined by the string. -/
theorem append_cons_inj {d : α} {w w' r r' : List α} (hw : d ∉ w) (hw' : d ∉ w')
    (h : w ++ d :: r = w' ++ d :: r') : w = w' ∧ r = r' := by
  induction w generalizing w' with
  | nil =>
    cases w' with
    | nil => exact ⟨rfl, (List.cons.inj h).2⟩
    | cons a w' =>
      obtain ⟨rfl, -⟩ := List.cons.inj h
      exact absurd List.mem_cons_self hw'
  | cons a w ih =>
    cases w' with
    | nil =>
      obtain ⟨rfl, -⟩ := List.cons.inj h
      exact absurd List.mem_cons_self hw
    | cons b w' =>
      obtain ⟨rfl, ht⟩ := List.cons.inj h
      obtain ⟨rfl, hr⟩ := ih (fun hm => hw (List.mem_cons_of_mem a hm))
        (fun hm => hw' (List.mem_cons_of_mem a hm)) ht
      exact ⟨rfl, hr⟩

/-- One string starts with the other exactly when its words do. -/
theorem closed_prefix_iff {d : α} {ps ws : List (List α)} (hp : ∀ w ∈ ps, d ∉ w)
    (hw : ∀ w ∈ ws, d ∉ w) : closed d ps <+: closed d ws ↔ ps <+: ws := by
  constructor
  · intro h
    induction ps generalizing ws with
    | nil => exact List.nil_prefix
    | cons p ps ih =>
      obtain ⟨rest, hrest⟩ := h
      cases ws with
      | nil => simp at hrest
      | cons w ws =>
        -- the first words end at the same delimiter
        rw [closed_cons, closed_cons, List.append_assoc, List.cons_append] at hrest
        obtain ⟨rfl, ht⟩ := append_cons_inj (hp p List.mem_cons_self) (hw w List.mem_cons_self) hrest
        refine List.cons_prefix_cons.mpr ⟨rfl, ih ?_ ?_ ⟨rest, ht⟩⟩
        · exact fun w hm => hp w (List.mem_cons_of_mem p hm)
        · exact fun w hm => hw w (List.mem_cons_of_mem p hm)
  · rintro ⟨rest, rfl⟩
    exact ⟨closed d rest, (closed_append d ps rest).symm⟩

theorem delimited_prefix_iff {d : α} {ps ws : List (List α)} (hp : ∀ w ∈ ps, d ∉ w)
    (hw : ∀ w ∈ ws, d ∉ w) : delimited d ps <+: delimited d ws ↔ ps <+: ws := by
  rw [delimited, delimited, List.cons_prefix_cons, closed_prefix_iff hp hw]
  exact and_iff_right rfl

theorem delimited_inj {d : α} {ws ws' : List (List α)} (hw : ∀ w ∈ ws, d ∉ w)
    (hw' : ∀ w ∈ ws', d ∉ w) (h : delimited d ws = delimited d ws') : ws = ws' := by
  have hle : ws <+: ws' := (delimited_prefix_iff hw hw').mp (h ▸ List.prefix_rfl)
  have hge : ws' <+: ws := (delimited_prefix_iff hw' hw).mp (h ▸ List.prefix_rfl)
  exact hle.eq_of_length (le_antisymm hle.length_le hge.length_le)

/-- Every string that ends in `d` consists of words closed by `d`. -/
theorem exists_closed (d : α) (n : ℕ) (l : List α) (hn : l.length ≤ n)
    (hl : l = [] ∨ l.getLast? = some d) : ∃ ws, (∀ w ∈ ws, d ∉ w) ∧ l = closed d ws := by
  induction n generalizing l with
  | zero =>
    obtain rfl := List.length_eq_zero_iff.mp (Nat.le_zero.mp hn)
    exact ⟨[], fun w hw => absurd hw List.not_mem_nil, rfl⟩
  | succ n ih =>
    rcases hl with rfl | hl
    · exact ⟨[], fun w hw => absurd hw List.not_mem_nil, rfl⟩
    · -- cut at the first delimiter; what is behind it still ends in one
      obtain ⟨w, rest, rfl, hw⟩ := List.eq_append_cons_of_mem (List.mem_of_getLast? hl)
      have hrest : rest = [] ∨ rest.getLast? = some d := by
        cases rest with
        | nil => exact Or.inl rfl
        | cons a rest => exact Or.inr (by simpa using hl)
      have hlen : rest.length ≤ n := by
        simp only [List.length_append, List.length_cons] at hn
        omega
      obtain ⟨ws, hws, rfl⟩ := ih rest hlen hrest
      refine ⟨w :: ws, ?_, (closed_cons d w ws).symm⟩
      intro v hv
      rcases List.mem_cons.mp hv with rfl | hv
      · exact hw
      · exact hws v hv

theorem exists_delimited {d : α} {l : List α} (hh : l.head? = some d) (hl : l.getLast? = some d) :
    ∃ ws, (∀ w ∈ ws, d ∉ w) ∧ l = delimited d ws := by
  cases l with
  | nil => cases hh
  | cons a l =>
    obtain rfl : a = d := Option.some.inj hh
    have hl' : l = [] ∨ l.getLast? = some a := by
      cases l with
      | nil => exact Or.inl rfl
      | cons b l => exact Or.inr (by simpa using hl)
    obtain ⟨ws, hws, rfl⟩ := exists_closed a l.length l le_rfl hl'
    exact ⟨ws, hws, rfl⟩

end

end SecureChaincode
