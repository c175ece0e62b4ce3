import Mathlib

/-! Runs of a deterministic machine that answers every input or stops for good. -/
namespace SecureChaincode

section
variable {σ ι ο : Type*} (step : σ → ι → Option (σ × ο))

/-- Feed the inputs one after the other, collecting the answers; `none` once an
input has stopped the machine. -/
def exec : σ → List ι → Option (σ × List ο)
  | s, [] => some (s, [])
  | s, i :: is =>
    match step s i with
    | none => none
    | some (s', o) => (exec s' is).map (fun r => (r.1, o :: r.2))

/-- `t` is the state at some moment of the run on `is`. -/
def Visits (s : σ) (is : List ι) (t : σ) : Prop :=
  ∃ is₁ is₂ os, is = is₁ ++ is₂ ∧ exec step s is₁ = some (t, os)

theorem exec_cons_eq_some {s : σ} {i : ι} {is : List ι} {r : σ × List ο} :
    exec step s (i :: is) = some r ↔
      ∃ s' o t os, step s i = some (s', o) ∧ exec step s' is = some (t, os) ∧ r = (t, o :: os) := by
  rw [exec]
  cases hs : step s i with
  | none => simp
  | some q =>
    obtain ⟨s', o⟩ := q
    simp only [Option.map_eq_some_iff, Prod.exists]
    constructor
    · rintro ⟨t, os, he, rfl⟩
      exact ⟨s', o, t, os, rfl, he, rfl⟩
    · rintro ⟨s'', o', t, os, hq, he, rfl⟩
      cases hq
      exact ⟨t, os, he, rfl⟩

theorem exec_append_eq_some {s : σ} {is is' : List ι} {r : σ × List ο} :
    exec step s (is ++ is') = some r ↔
      ∃ t os u os', exec step s is = some (t, os) ∧ exec step t is' = some (u, os') ∧
        r = (u, os ++ os') := by
  induction is generalizing s r with
  | nil =>
    constructor
    · intro h
      exact ⟨s, [], r.1, r.2, rfl, h, rfl⟩
    · rintro ⟨t, os, u, os', he, hr, rfl⟩
      cases he
      exact hr
  | cons i is ih =>
    -- the first answer stands in front of those to the rest
    rw [List.cons_append, exec_cons_eq_some]
    constructor
    · rintro ⟨s', o, t, os, hs, he, rfl⟩
      obtain ⟨v, ws, u, os', hv, hu, hr⟩ := ih.mp he
      cases hr
      exact ⟨v, o :: ws, _, os', (exec_cons_eq_some step).mpr ⟨s', o, v, ws, hs, hv, rfl⟩, hu, rfl⟩
    · rintro ⟨t, os, u, os', he, hu, rfl⟩
      obtain ⟨s', o, v, ws, hs, hv, hr⟩ := (exec_cons_eq_some step).mp he
      cases hr
      exact ⟨s', o, u, ws ++ os', hs, ih.mpr ⟨_, _, _, _, hv, hu, rfl⟩, rfl⟩

theorem exec_snoc_eq_some {s : σ} {is : List ι} {i : ι} {r : σ × List ο} :
    exec step s (is ++ [i]) = some r ↔
      ∃ t os t' o, exec step s is = some (t, os) ∧ step t i = some (t', o) ∧
        r = (t', os ++ [o]) := by
  rw [exec_append_eq_some]
  constructor
  · rintro ⟨t, os, u, os', he, hu, rfl⟩
    obtain ⟨u', o, v, ws, hs, hv, hr⟩ := (exec_cons_eq_some step).mp hu
    cases hv
    cases hr
    exact ⟨t, os, _, o, he, hs, rfl⟩
  · rintro ⟨t, os, t', o, he, hs, rfl⟩
    exact ⟨t, os, t', [o], he, (exec_cons_eq_some step).mpr ⟨t', o, t', [], hs, rfl, rfl⟩, rfl⟩

/-- Machines that agree on the inputs of a run, whatever state they are in. -/
theorem exec_congr {step' : σ → ι → Option (σ × ο)} {is : List ι} (h : ∀ s, ∀ i ∈ is, step s i = step' s i)
    (s : σ) : exec step s is = exec step' s is := by
  induction is generalizing s with
  | nil => rfl
  | cons i is ih =>
    rw [exec, exec, h s i List.mem_cons_self]
    cases step' s i with
    | none => rfl
    | some p => simp only [ih (fun t j hj => h t j (List.mem_cons_of_mem i hj))]

theorem exec_map {κ : Type*} (f : κ → ι) (s : σ) (ks : List κ) :
    exec (fun s k => step s (f k)) s ks = exec step s (ks.map f) := by
  induction ks generalizing s with
  | nil => rfl
  | cons k ks ih =>
    rw [List.map_cons, exec, exec]
    cases step s (f k) with
    | none => rfl
    | some r => simp only [ih]

/-- What holds at the start and is kept by each answered input holds after every run. -/
theorem exec_invariant {s : σ} (P : List ι → List ο → σ → Prop) (h0 : P [] [] s)
    (hstep : ∀ is os t i t' o, exec step s is = some (t, os) → P is os t →
      step t i = some (t', o) → P (is ++ [i]) (os ++ [o]) t')
    {is : List ι} {os : List ο} {t : σ} (h : exec step s is = some (t, os)) : P is os t := by
  induction is using List.reverseRecOn generalizing os t with
  | nil =>
    cases h
    exact h0
  | append_singleton is i ih =>
    obtain ⟨u, ws, u', o, hu, hs, hr⟩ := (exec_snoc_eq_some step).mp h
    cases hr
    exact hstep is ws u i _ o hu (ih hu) hs

theorem exec_length {s t : σ} {is : List ι} {os : List ο} (h : exec step s is = some (t, os)) :
    os.length = is.length := by
  refine exec_invariant step (fun is os _ => os.length = is.length) rfl ?_ h
  intro is os t i t' o _ ih _
  simp [ih]

/-- The moment of a run at which it comes to one of its inputs. -/
theorem exec_getElem? {s t : σ} {is : List ι} {os : List ο} (h : exec step s is = some (t, os)) {n : ℕ} {i : ι}
    (hi : is[n]? = some i) :
    ∃ u us u' o, exec step s (is.take n) = some (u, us) ∧ step u i = some (u', o) ∧ os[n]? = some o ∧
      exec step s (is.take (n+1)) = some (u', us ++ [o]) := by
  obtain ⟨hn, rfl⟩ := List.getElem?_eq_some_iff.mp hi
  have hsplit : is.take n ++ is[n] :: is.drop (n+1) = is := by
    rw [← List.drop_eq_getElem_cons hn, List.take_append_drop]
  rw [← hsplit, exec_append_eq_some] at h
  obtain ⟨u, us, v, vs, hu, hv, hr⟩ := h
  cases hr
  obtain ⟨u', o, w, ws, hs, hw, hr⟩ := (exec_cons_eq_some step).mp hv
  cases hr
  have hlen := exec_length step hu
  rw [List.length_take, Nat.min_eq_left hn.le] at hlen
  refine ⟨u, us, u', o, hu, hs, ?_, ?_⟩
  · rw [List.getElem?_append_right hlen.le, hlen, Nat.sub_self, List.getElem?_cons_zero]
  · rw [List.take_succ_eq_append_getElem hn]
    exact (exec_snoc_eq_some step).mpr ⟨u, us, u', o, hu, hs, rfl⟩

theorem Visits.start (s : σ) (is : List ι) : Visits step s is s :=
  ⟨[], is, [], rfl, rfl⟩

theorem Visits.finish {s t : σ} {is : List ι} {os : List ο} (h : exec step s is = some (t, os)) :
    Visits step s is t :=
  ⟨is, [], os, (List.append_nil is).symm, h⟩

theorem Visits.mono {s t : σ} {is is' : List ι} (h : Visits step s is t) :
    Visits step s (is ++ is') t := by
  obtain ⟨is₁, is₂, os, rfl, he⟩ := h
  exact ⟨is₁, is₂ ++ is', os, List.append_assoc _ _ _, he⟩

/-- The first moment of a run, and those after its first input. -/
theorem visits_cons {s t : σ} {i : ι} {is : List ι} (h : Visits step s (i :: is) t) :
    t = s ∨ ∃ s' o, step s i = some (s', o) ∧ Visits step s' is t := by
  obtain ⟨is₁, is₂, os, he, ht⟩ := h
  cases is₁ with
  | nil =>
    cases ht
    exact Or.inl rfl
  | cons j is₁ =>
    obtain ⟨rfl, rfl⟩ := List.cons.inj he
    obtain ⟨s', o, u, us, hs, hu, hr⟩ := (exec_cons_eq_some step).mp ht
    cases hr
    exact Or.inr ⟨s', o, hs, is₁, is₂, us, rfl, hu⟩

theorem visits_nil {s t : σ} (h : Visits step s [] t) : t = s := by
  obtain ⟨is₁, is₂, os, he, ht⟩ := h
  rw [(List.append_eq_nil_iff.mp he.symm).1] at ht
  cases ht
  rfl

/-- The moments of a run that is one input longer. -/
theorem visits_snoc {s t : σ} {is : List ι} {i : ι} :
    Visits step s (is ++ [i]) t ↔
      Visits step s is t ∨ ∃ os, exec step s (is ++ [i]) = some (t, os) := by
  constructor
  · rintro ⟨is₁, is₂, os, he, h⟩
    rcases List.eq_nil_or_concat is₂ with rfl | ⟨is₃, j, rfl⟩
    · rw [List.append_nil] at he
      exact Or.inr ⟨os, he ▸ h⟩
    · rw [List.concat_eq_append, ← List.append_assoc] at he
      exact Or.inl ⟨is₁, is₃, os, List.append_inj_left' he rfl, h⟩
  · rintro (h | ⟨os, h⟩)
    · exact h.mono step
    · exact Visits.finish step h

end

section
variable {α : Type*} {l : List α} {p q : α} {i j : ℕ}

/-! The parties of a system stand in a list, in the order in which they came. -/

/-- One party more. -/
theorem getElem?_snoc (h : (l ++ [q])[i]? = some p) : l[i]? = some p ∨ (i = l.length ∧ p = q) := by
  grind

/-- One party has taken a step. -/
theorem getElem?_set_cases (h : (l.set i q)[j]? = some p) :
    (j = i ∧ p = q) ∨ (j ≠ i ∧ l[j]? = some p) := by
  grind

/-- What the parties contribute to a sum when one of them has taken a step. -/
theorem sum_map_set (f : α → ℕ) (h : l[i]? = some p) : ((l.set i q).map f).sum+f p = (l.map f).sum+f q := by
  induction l generalizing i with
  | nil => cases h
  | cons a l ih =>
    cases i with
    | zero =>
      cases h
      simp only [List.set_cons_zero, List.map_cons, List.sum_cons]
      omega
    | succ i =>
      have hrest := ih (i := i) h
      simp only [List.set_cons_succ, List.map_cons, List.sum_cons]
      omega

theorem le_sum_map (f : α → ℕ) (h : l[i]? = some p) : f p ≤ (l.map f).sum :=
  List.le_sum_of_mem (List.mem_map_of_mem (List.mem_of_getElem? h))

end

end SecureChaincode
