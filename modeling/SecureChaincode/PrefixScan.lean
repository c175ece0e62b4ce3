import Mathlib

/-! Scans of a sorted list of strings for the strings that start with a given one: the
walk from the lower bound to the first string that does not. -/
namespace SecureChaincode

open Std

section
variable {α β : Type*} {cmp : α → α → Ordering} [LawfulEqCmp cmp]

theorem compareLex_ne_lt_of_prefix {p k : List α} (h : p <+: k) :
    List.compareLex cmp k p ≠ .lt := by
  induction p generalizing k with
  | nil => cases k <;> simp [List.compareLex]
  | cons a p ih =>
    cases k with
    | nil => simp at h
    | cons b k =>
      obtain ⟨rfl, hp⟩ := List.cons_prefix_cons.mp h
      have hself : cmp a a = .eq := ReflCmp.compare_self
      rw [List.compareLex_cons_cons, hself, Ordering.eq_then]
      exact ih hp

/-- Whatever lies between a string and one that extends it extends it as well. -/
theorem prefix_of_between {p k k' : List α} (hk : List.compareLex cmp k p ≠ .lt)
    (hkk : List.compareLex cmp k k' = .lt) (hp : p <+: k') : p <+: k := by
  induction p generalizing k k' with
  | nil => exact List.nil_prefix
  | cons a p ih =>
    cases k' with
    | nil => simp at hp
    | cons b k' =>
      obtain ⟨rfl, hpk⟩ := List.cons_prefix_cons.mp hp
      cases k with
      | nil => simp [List.compareLex] at hk
      | cons c k =>
        -- if the first letters differ, the string is not between the two
        rw [List.compareLex_cons_cons] at hk hkk
        cases hc : cmp c a with
        | lt => simp [hc] at hk
        | gt => simp [hc] at hkk
        | eq =>
          rw [hc, Ordering.eq_then] at hk hkk
          obtain rfl : c = a := LawfulEqCmp.compare_eq_iff_eq.mp hc
          exact List.cons_prefix_cons.mpr ⟨rfl, ih hk hkk hpk⟩

variable [BEq α] [LawfulBEq α]

theorem takeWhile_prefix_eq_filter {p : List α} {l : List (List α × β)}
    (hs : l.Pairwise (fun a b => List.compareLex cmp a.1 b.1 = .lt))
    (hl : ∀ e ∈ l, List.compareLex cmp e.1 p ≠ .lt) :
    l.takeWhile (fun e => p.isPrefixOf e.1) = l.filter (fun e => p.isPrefixOf e.1) := by
  induction l with
  | nil => rfl
  | cons e l ih =>
    have hp := List.pairwise_cons.mp hs
    have ht := ih hp.2 (fun x hx => hl x (List.mem_cons_of_mem e hx))
    by_cases he : p.isPrefixOf e.1 = true
    · rw [List.takeWhile_cons, List.filter_cons, if_pos he, if_pos he, ht]
    · -- no string behind the first miss can match
      rw [List.takeWhile_cons, List.filter_cons, if_neg he, if_neg he, eq_comm,
        List.filter_eq_nil_iff]
      intro x hx hpx
      apply he
      rw [List.isPrefixOf_iff_prefix] at hpx ⊢
      exact prefix_of_between (hl e List.mem_cons_self) (hp.1 x hx) hpx

variable [TransCmp cmp]

/-- The scan finds all strings with the prefix, and only these. -/
theorem scan_eq_filter {p : List α} {l : List (List α × β)}
    (hs : l.Pairwise (fun a b => List.compareLex cmp a.1 b.1 = .lt)) :
    (l.dropWhile (fun e => List.compareLex cmp e.1 p == .lt)).takeWhile
      (fun e => p.isPrefixOf e.1) = l.filter (fun e => p.isPrefixOf e.1) := by
  induction l with
  | nil => rfl
  | cons e l ih =>
    have hp := List.pairwise_cons.mp hs
    by_cases he : List.compareLex cmp e.1 p = .lt
    · -- what lies below the prefix does not start with it
      have hne : ¬p.isPrefixOf e.1 = true := by
        rw [List.isPrefixOf_iff_prefix]
        intro h
        exact compareLex_ne_lt_of_prefix h he
      rw [List.dropWhile_cons, if_pos (beq_iff_eq.mpr he), List.filter_cons, if_neg hne, ih hp.2]
    · rw [List.dropWhile_cons, if_neg (fun h => he (beq_iff_eq.mp h))]
      -- from the lower bound on nothing lies below the prefix
      apply takeWhile_prefix_eq_filter hs
      intro x hx hlt
      rcases List.mem_cons.mp hx with rfl | hx
      · exact he hlt
      · exact he (TransCmp.lt_trans (hp.1 x hx) hlt)

end

end SecureChaincode
