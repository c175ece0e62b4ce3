import Mathlib

/-! A loop that looks for the only item of the highest value. -/
namespace SecureChaincode

section
variable {α β : Type*} [LinearOrder β] (value : α → β)

/-- The items of a list that no other exceeds. -/
def highest (l : List α) : List α := l.filter (fun a => l.all (fun b => decide (value b ≤ value a)))

theorem highest_perm {l l' : List α} (h : l.Perm l') : (highest value l).Perm (highest value l') := by
  have hall : (fun a => l.all (fun b => decide (value b ≤ value a))) =
      fun a => l'.all (fun b => decide (value b ≤ value a)) := funext (fun a => h.all_eq)
  rw [highest, highest, hall]
  exact h.filter _

theorem mem_highest {l : List α} {a : α} : a ∈ highest value l ↔ a ∈ l ∧ ∀ b ∈ l, value b ≤ value a := by
  simp [highest]

theorem highest_eq_nil_iff {l : List α} : highest value l = [] ↔ l = [] := by
  constructor
  · intro h
    by_contra hne
    obtain ⟨a, ha, hmax⟩ : ∃ a ∈ l, ∀ b ∈ l, value b ≤ value a := by
      obtain ⟨a, ha, hmax⟩ := Set.exists_max_image {a | a ∈ l} value (List.finite_toSet l)
        (List.exists_mem_of_ne_nil l hne)
      exact ⟨a, ha, hmax⟩
    have hmem := (mem_highest value).mpr ⟨ha, hmax⟩
    rw [h] at hmem
    cases hmem
  · rintro rfl
    rfl

/-- They are the items of the value that is an upper bound and is reached. -/
theorem highest_eq {l : List α} {high : β} (hle : ∀ a ∈ l, value a ≤ high) (hex : ∃ a ∈ l, value a = high) :
    highest value l = l.filter (fun a => decide (value a = high)) := by
  apply List.filter_congr
  intro a ha
  obtain ⟨b, hb, hhigh⟩ := hex
  rw [Bool.eq_iff_iff, List.all_eq_true, decide_eq_true_iff]
  constructor
  · intro h
    have hba : value b ≤ value a := of_decide_eq_true (h b hb)
    exact le_antisymm (hle a ha) (hhigh ▸ hba)
  · rintro rfl c hc
    exact decide_eq_true (hle c hc)

/-- The variables of the loop: the item in the lead, its value, and whether another one has
drawn level. -/
structure Lead (α β : Type*) where
  leader : α
  high : β
  tie : Bool

/-- One round. -/
def Lead.next (s : Lead α β) (a : α) : Lead α β :=
  if s.high < value a then ⟨a, value a, false⟩
  else if value a = s.high then { s with tie := true }
  else s

variable {value} {start : Lead α β}

/-- What holds after each round: nothing exceeds the lead, and the flag tells whether the leader is
alone. -/
structure LeadInv (value : α → β) (l : List α) (s : Lead α β) : Prop where
  le : ∀ a ∈ l, value a ≤ s.high
  reached : ∃ a ∈ l, value a = s.high
  alone : s.tie = false → l.filter (fun a => decide (value a = s.high)) = [s.leader]
  shared : s.tie = true → 2 ≤ (l.filter (fun a => decide (value a = s.high))).length

/-- An item that exceeds all the others takes the lead alone. -/
theorem leadInv_of_exceeds {l : List α} {a : α} (h : ∀ b ∈ l, value b < value a) :
    LeadInv value (l ++ [a]) ⟨a, value a, false⟩ := by
  have hnone : l.filter (fun b => decide (value b = value a)) = [] := by
    rw [List.filter_eq_nil_iff]
    intro b hb he
    exact absurd (of_decide_eq_true he) (h b hb).ne
  refine ⟨?_, ⟨a, List.mem_append_right l (List.mem_singleton_self a), rfl⟩, fun _ => ?_, nofun⟩
  · intro b hb
    rcases List.mem_append.mp hb with hb | hb
    · exact (h b hb).le
    · rw [List.mem_singleton.mp hb]
  · rw [List.filter_append, hnone]
    simp

theorem LeadInv.snoc {l : List α} {s : Lead α β} (hs : LeadInv value l s) (a : α) :
    LeadInv value (l ++ [a]) (s.next value a) := by
  rw [Lead.next]
  split_ifs with hlt heq
  · exact leadInv_of_exceeds (fun b hb => (hs.le b hb).trans_lt hlt)
  · -- it draws level
    obtain ⟨b, hb, hbhigh⟩ := hs.reached
    refine ⟨?_, ⟨b, List.mem_append_left _ hb, hbhigh⟩, nofun, fun _ => ?_⟩
    · intro c hc
      rcases List.mem_append.mp hc with hc | hc
      · exact hs.le c hc
      · rw [List.mem_singleton.mp hc]
        exact heq.le
    · have hpos : 0 < (l.filter (fun b => decide (value b = s.high))).length :=
        List.length_pos_of_mem (List.mem_filter.mpr ⟨hb, decide_eq_true hbhigh⟩)
      rw [List.filter_append, List.length_append]
      simp only [heq, List.filter_cons, decide_true, List.filter_nil, if_true, List.length_singleton]
      omega
  · -- it stays behind
    have hsame : (l ++ [a]).filter (fun b => decide (value b = s.high)) =
        l.filter (fun b => decide (value b = s.high)) := by
      rw [List.filter_append]
      simp [heq]
    obtain ⟨b, hb, hbhigh⟩ := hs.reached
    refine ⟨?_, ⟨b, List.mem_append_left _ hb, hbhigh⟩, ?_, ?_⟩
    · intro c hc
      rcases List.mem_append.mp hc with hc | hc
      · exact hs.le c hc
      · rw [List.mem_singleton.mp hc]
        exact le_of_not_gt hlt
    · rw [hsame]
      exact hs.alone
    · rw [hsame]
      exact hs.shared

/-- As long as nothing exceeds the value at the start, only the flag can change. -/
theorem foldl_next_of_le {l : List α} (h : ∀ a ∈ l, value a ≤ start.high) :
    l.foldl (Lead.next value) start =
      { start with tie := start.tie || l.any (fun a => decide (value a = start.high)) } := by
  induction l generalizing start with
  | nil => simp
  | cons a l ih =>
    obtain ⟨ha, hl⟩ := List.forall_mem_cons.mp h
    have hround : start.next value a = { start with tie := start.tie || decide (value a = start.high) } := by
      rw [Lead.next, if_neg (not_lt_of_ge ha)]
      split_ifs with heq
      · simp [heq]
      · simp [heq]
    have hrest := @ih { start with tie := start.tie || decide (value a = start.high) } hl
    rw [List.foldl_cons, hround, hrest, List.any_cons, Bool.or_assoc]

/-- Once an item has exceeded the value at the start, the invariant holds. -/
theorem leadInv_foldl {l : List α} (h : ∃ a ∈ l, start.high < value a) :
    LeadInv value l (l.foldl (Lead.next value) start) := by
  induction l using List.reverseRecOn with
  | nil =>
    obtain ⟨a, ha, -⟩ := h
    cases ha
  | append_singleton l b ih =>
    rw [List.foldl_append]
    by_cases hl : ∃ a ∈ l, start.high < value a
    · exact (ih hl).snoc b
    · -- the last item is the first that exceeds it
      have hle : ∀ a ∈ l, value a ≤ start.high := fun a ha => le_of_not_gt (fun hlt => hl ⟨a, ha, hlt⟩)
      have hb : start.high < value b := by
        obtain ⟨a, ha, hlt⟩ := h
        rcases List.mem_append.mp ha with ha | ha
        · exact absurd ⟨a, ha, hlt⟩ hl
        · rwa [List.mem_singleton.mp ha] at hlt
      rw [foldl_next_of_le hle, List.foldl_cons, List.foldl_nil, Lead.next, if_pos hb]
      exact leadInv_of_exceeds (fun a ha => (hle a ha).trans_lt hb)

/-- The loop finds the only item of the highest value, or that there are several. -/
theorem foldl_next {l : List α} (h : ∃ a ∈ l, start.high < value a) :
    let s := l.foldl (Lead.next value) start
    s.tie = false ∧ highest value l = [s.leader] ∨ s.tie = true ∧ 2 ≤ (highest value l).length := by
  have hinv := leadInv_foldl h
  intro s
  rw [highest_eq value hinv.le hinv.reached]
  cases htie : s.tie with
  | false => exact Or.inl ⟨rfl, hinv.alone htie⟩
  | true => exact Or.inr ⟨rfl, hinv.shared htie⟩

/-- What the loop ends with: the leader, if it is alone. -/
def Lead.result (s : Lead α β) : Option α := if s.tie then none else some s.leader

/-- The order of the items does not matter. -/
theorem result_foldl_perm {l l' : List α} (hperm : l.Perm l') :
    (l.foldl (Lead.next value) start).result = (l'.foldl (Lead.next value) start).result := by
  by_cases h : ∃ a ∈ l, start.high < value a
  · have h' : ∃ a ∈ l', start.high < value a := by
      obtain ⟨a, ha, hlt⟩ := h
      exact ⟨a, hperm.mem_iff.mp ha, hlt⟩
    have hhighest := highest_perm value hperm
    rcases foldl_next h with ⟨htie, hone⟩ | ⟨htie, hseveral⟩ <;>
      rcases foldl_next h' with ⟨htie', hone'⟩ | ⟨htie', hseveral'⟩
    · rw [hone, hone', List.singleton_perm_singleton] at hhighest
      rw [Lead.result, Lead.result, htie, htie', hhighest]
    · rw [← hhighest.length_eq, hone, List.length_singleton] at hseveral'
      omega
    · rw [hhighest.length_eq, hone', List.length_singleton] at hseveral
      omega
    · rw [Lead.result, Lead.result, htie, htie', if_pos rfl, if_pos rfl]
  · have hle : ∀ a ∈ l, value a ≤ start.high := fun a ha => le_of_not_gt (fun hlt => h ⟨a, ha, hlt⟩)
    rw [foldl_next_of_le hle, foldl_next_of_le (fun a ha => hle a (hperm.mem_iff.mpr ha)), hperm.any_eq]

end

end SecureChaincode
