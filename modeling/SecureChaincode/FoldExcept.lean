import Mathlib

/-! Inversion rules for computations that may exit early, and for loops over them, and a
relation between two such computations that take the same way out. -/
namespace SecureChaincode

section
variable {ε α β σ ι : Type}

theorem bind_eq_ok {p : Except ε α} {f : α → Except ε β} {b : β} (h : p >>= f = .ok b) :
    ∃ a, p = .ok a ∧ f a = .ok b := by
  cases p with
  | error e => cases h
  | ok a => exact ⟨a, rfl, h⟩

theorem map_eq_ok {f : α → β} {p : Except ε α} {b : β} (h : p.map f = .ok b) :
    ∃ a, p = .ok a ∧ b = f a := by
  cases p with
  | error e => cases h
  | ok a =>
    cases h
    exact ⟨a, rfl, rfl⟩

theorem bind_eq_error {p : Except ε α} {f : α → Except ε β} {e : ε} (h : p >>= f = .error e) :
    p = .error e ∨ ∃ a, p = .ok a ∧ f a = .error e := by
  cases p with
  | error e' =>
    cases h
    exact Or.inl rfl
  | ok a => exact Or.inr ⟨a, rfl, h⟩

theorem bind_eq_error_iff {p : Except ε α} {f : α → Except ε β} {e : ε} :
    p >>= f = .error e ↔ p = .error e ∨ ∃ a, p = .ok a ∧ f a = .error e := by
  constructor
  · exact bind_eq_error
  · rintro (hp | ⟨a, hp, hf⟩)
    · rw [hp]
      rfl
    · rw [hp]
      exact hf

/-- A loop that only checks exits at its first item that does not pass. -/
theorem forM_eq_error_iff {f : ι → Except ε Unit} {is : List ι} {e : ε} :
    is.forM f = .error e ↔
      ∃ pre i post, is = pre ++ i :: post ∧ (∀ j ∈ pre, f j = .ok ()) ∧ f i = .error e := by
  induction is with
  | nil =>
    constructor
    · intro h
      cases h
    · rintro ⟨pre, i, post, h, -⟩
      simp at h
  | cons i is ih =>
    rw [List.forM, bind_eq_error_iff, ih]
    constructor
    · rintro (hi | ⟨⟨⟩, hi, pre, j, post, rfl, hpre, hj⟩)
      · exact ⟨[], i, is, rfl, fun _ h => absurd h List.not_mem_nil, hi⟩
      · exact ⟨i :: pre, j, post, rfl, List.forall_mem_cons.mpr ⟨hi, hpre⟩, hj⟩
    · rintro ⟨pre, j, post, hsplit, hpre, hj⟩
      cases pre with
      | nil =>
        cases hsplit
        exact Or.inl hj
      | cons k pre =>
        cases hsplit
        exact Or.inr ⟨(), (List.forall_mem_cons.mp hpre).1, pre, j, post, rfl,
          (List.forall_mem_cons.mp hpre).2, hj⟩

theorem mapError_eq_ok {ε' : Type} {f : ε → ε'} {p : Except ε α} {a : α}
    (h : p.mapError f = .ok a) : p = .ok a := by
  cases p with
  | error e => cases h
  | ok b =>
    cases h
    rfl

theorem mapError_eq_error {ε' : Type} {f : ε → ε'} {p : Except ε α} {e' : ε'}
    (h : p.mapError f = .error e') : ∃ e, p = .error e ∧ f e = e' := by
  cases p with
  | error e =>
    cases h
    exact ⟨e, rfl, rfl⟩
  | ok b => cases h

theorem foldlM_snoc_eq_ok {f : σ → ι → Except ε σ} {s t : σ} {is : List ι} {i : ι}
    (h : (is ++ [i]).foldlM f s = .ok t) :
    ∃ u, is.foldlM f s = .ok u ∧ f u i = .ok t := by
  rw [List.foldlM_append] at h
  obtain ⟨u, hu, h⟩ := bind_eq_ok h
  rw [List.foldlM_cons] at h
  obtain ⟨t', ht, h⟩ := bind_eq_ok h
  cases h
  exact ⟨u, hu, ht⟩

/-- What a loop that runs to its end has kept from its start holds at its end. -/
theorem foldlM_invariant {f : σ → ι → Except ε σ} {s : σ} (P : List ι → σ → Prop) (h0 : P [] s)
    (hstep : ∀ is i t t', P is t → f t i = .ok t' → P (is ++ [i]) t')
    {is : List ι} {t : σ} (h : is.foldlM f s = .ok t) : P is t := by
  induction is using List.reverseRecOn generalizing t with
  | nil =>
    cases h
    exact h0
  | append_singleton is i ih =>
    obtain ⟨u, hu, ht⟩ := foldlM_snoc_eq_ok h
    exact hstep is i u t (ih hu) ht

/-- A loop that exits early has run through the rounds before the one that exits. -/
theorem foldlM_eq_error {f : σ → ι → Except ε σ} {s : σ} {is : List ι} {e : ε}
    (h : is.foldlM f s = .error e) :
    ∃ is₁ i is₂ t, is = is₁ ++ i :: is₂ ∧ is₁.foldlM f s = .ok t ∧ f t i = .error e := by
  induction is generalizing s with
  | nil => cases h
  | cons i is ih =>
    rw [List.foldlM_cons] at h
    -- the first round exits, or a later one
    rcases bind_eq_error h with hi | ⟨t, ht, hrest⟩
    · exact ⟨[], i, is, s, rfl, rfl, hi⟩
    · obtain ⟨is₁, j, is₂, u, he, hu, hj⟩ := ih hrest
      refine ⟨i :: is₁, j, is₂, u, by rw [he, List.cons_append], ?_, hj⟩
      rw [List.foldlM_cons, ht]
      exact hu

/-- Whenever the computation exits early, it does so with the property. -/
def ExitsWith (P : ε → Prop) (p : Except ε α) : Prop := ∀ e, p = .error e → P e

theorem ExitsWith.ok {P : ε → Prop} (a : α) : ExitsWith P (.ok a) := by
  intro e h
  cases h

theorem ExitsWith.error {P : ε → Prop} {e : ε} (h : P e) :
    ExitsWith P (.error e : Except ε α) := by
  intro e' he
  rwa [← Except.error.inj he]

theorem ExitsWith.bind {P : ε → Prop} {p : Except ε α} {f : α → Except ε β} (h : ExitsWith P p)
    (hf : ∀ a, ExitsWith P (f a)) : ExitsWith P (p >>= f) := by
  intro e he
  rcases bind_eq_error he with hp | ⟨a, -, ha⟩
  · exact h e hp
  · exact hf a e ha

theorem ExitsWith.foldlM {f : σ → ι → Except ε σ} {P : ε → Prop} {is : List ι}
    (hf : ∀ t, ∀ i ∈ is, ExitsWith P (f t i)) (s : σ) : ExitsWith P (is.foldlM f s) := by
  intro e h
  obtain ⟨is₁, i, is₂, t, he, -, hi⟩ := foldlM_eq_error h
  exact hf t i (by simp [he]) e hi

/-- Every round of a loop that runs to its end has been run to its end. -/
theorem foldlM_eq_ok_mem {f : σ → ι → Except ε σ} {s t : σ} {is : List ι}
    (h : is.foldlM f s = .ok t) {i : ι} (hi : i ∈ is) : ∃ u u', f u i = .ok u' := by
  induction is generalizing s with
  | nil => cases hi
  | cons j is ih =>
    rw [List.foldlM_cons] at h
    obtain ⟨u, hu, h⟩ := bind_eq_ok h
    rcases List.mem_cons.mp hi with rfl | hi
    · exact ⟨s, u, hu⟩
    · exact ih h hi

/-- A loop that only checks is through when every item passes, and only then. -/
theorem forM_eq_ok_mem {f : ι → Except ε Unit} {is : List ι} (h : is.forM f = .ok ()) {i : ι}
    (hi : i ∈ is) : f i = .ok () := by
  induction is with
  | nil => cases hi
  | cons j is ih =>
    obtain ⟨⟨⟩, hj, hrest⟩ := bind_eq_ok (show (f j >>= fun _ => is.forM f) = .ok () from h)
    rcases List.mem_cons.mp hi with rfl | hi
    · exact hj
    · exact ih hrest hi

theorem forM_eq_ok_of_forall {f : ι → Except ε Unit} {is : List ι} (h : ∀ i ∈ is, f i = .ok ()) :
    is.forM f = .ok () := by
  induction is with
  | nil => rfl
  | cons j is ih =>
    change (f j >>= fun _ => is.forM f) = .ok ()
    rw [h j List.mem_cons_self]
    exact ih (fun i hi => h i (List.mem_cons_of_mem j hi))

/-- A loop whose rounds all get through gets through. -/
theorem foldlM_eq_ok_of_forall {f : σ → ι → Except ε σ} {is : List ι} (h : ∀ i ∈ is, ∀ s, ∃ t, f s i = .ok t)
    (s : σ) : ∃ t, is.foldlM f s = .ok t := by
  induction is generalizing s with
  | nil => exact ⟨s, rfl⟩
  | cons i is ih =>
    obtain ⟨t, ht⟩ := h i List.mem_cons_self s
    rw [List.foldlM_cons, ht]
    exact ih (fun j hj => h j (List.mem_cons_of_mem i hj)) t

/-- A loop gets through when every item lets it, whatever it has come to. -/
theorem foldlM_isOk_iff {f : σ → ι → Except ε σ} {P : ι → Prop} (h : ∀ s i, (∃ t, f s i = .ok t) ↔ P i) (s : σ)
    (is : List ι) : (∃ t, is.foldlM f s = .ok t) ↔ ∀ i ∈ is, P i := by
  constructor
  · rintro ⟨t, ht⟩ i hi
    obtain ⟨u, u', hu⟩ := foldlM_eq_ok_mem ht hi
    exact (h u i).mp ⟨u', hu⟩
  · intro hall
    exact foldlM_eq_ok_of_forall (fun i hi s => (h s i).mpr (hall i hi)) s

theorem mapM_eq_ok_mem {g : ι → Except ε α} {is : List ι} {as : List α} (h : is.mapM g = .ok as)
    {i : ι} (hi : i ∈ is) : ∃ a ∈ as, g i = .ok a := by
  induction is generalizing as with
  | nil => cases hi
  | cons j is ih =>
    rw [List.mapM_cons] at h
    obtain ⟨a, ha, h⟩ := bind_eq_ok h
    obtain ⟨as', has, h⟩ := bind_eq_ok h
    cases h
    rcases List.mem_cons.mp hi with rfl | hi
    · exact ⟨a, List.mem_cons_self, ha⟩
    · obtain ⟨b, hb, hg⟩ := ih has hi
      exact ⟨b, List.mem_cons_of_mem a hb, hg⟩

theorem mapM_eq_ok {f : ι → Except ε α} {g : ι → α} {is : List ι} (h : ∀ i ∈ is, f i = .ok (g i)) :
    is.mapM f = .ok (is.map g) := by
  induction is with
  | nil => rfl
  | cons i is ih =>
    rw [List.mapM_cons, h i List.mem_cons_self, ih (fun j hj => h j (List.mem_cons_of_mem i hj))]
    rfl

theorem mapM_map_eq_ok {β γ : Type} {f : β → Except ε γ} {h : ι → β} {g : ι → γ} {is : List ι}
    (hf : ∀ i ∈ is, f (h i) = .ok (g i)) : (is.map h).mapM f = .ok (is.map g) := by
  rw [List.mapM_map]
  exact mapM_eq_ok hf

/-- Two computations that give the same under two functions exit alike, or run to their
end with results that give the same. -/
theorem map_eq_map_cases {γ : Type} {p : Except ε α} {q : Except ε β} {f : α → γ} {g : β → γ}
    (h : p.map f = q.map g) :
    (∃ e, p = .error e ∧ q = .error e) ∨ ∃ a b, p = .ok a ∧ q = .ok b ∧ f a = g b := by
  cases p with
  | error e =>
    cases q with
    | error e' =>
      cases h
      exact Or.inl ⟨e, rfl, rfl⟩
    | ok b => cases h
  | ok a =>
    cases q with
    | error e' => cases h
    | ok b => exact Or.inr ⟨a, b, rfl, rfl, Except.ok.inj h⟩

/-- A loop that ands a verdict on every item into a flag gives the verdict on all items. -/
theorem foldlM_verdict {f : σ → ι → Except ε σ} {κ : Type} {g : ι → Except ε (List κ)}
    {flag : σ → Bool} {p : κ → Bool}
    (h : ∀ s i, (f s i).map flag = (g i).map (fun l => flag s && l.all p)) (s : σ) (is : List ι) :
    (is.foldlM f s).map flag = (is.mapM g).map (fun ls => flag s && ls.flatten.all p) := by
  induction is generalizing s with
  | nil => simp [pure, Except.pure, Except.map]
  | cons i is ih =>
    rw [List.foldlM_cons, List.mapM_cons]
    rcases map_eq_map_cases (h s i) with ⟨e, hf, hg⟩ | ⟨t, l, hf, hg, ht⟩
    · rw [hf, hg]
      rfl
    · -- the rest of the loop starts from the flag that this item has left
      have hrest := ih t
      rw [ht] at hrest
      rw [hf, hg]
      change (is.foldlM f t).map flag = _
      rw [hrest]
      cases is.mapM g with
      | error e => simp [bind, Except.bind, Except.map]
      | ok ls => simp [bind, Except.bind, Except.map, pure, Except.pure, Bool.and_assoc]

/-- A loop that takes up, item by item, what another function lists for the item has taken
up all of these lists. -/
theorem foldlM_collect {f : σ → ι → Except ε σ} {κ γ : Type} {g : ι → Except ε (List κ)}
    {get : σ → γ} {op : γ → κ → γ} (h : ∀ s i, (f s i).map get = (g i).map (fun l => l.foldl op (get s)))
    (s : σ) (is : List ι) :
    (is.foldlM f s).map get = (is.mapM g).map (fun ls => ls.flatten.foldl op (get s)) := by
  induction is generalizing s with
  | nil => rfl
  | cons i is ih =>
    rw [List.foldlM_cons, List.mapM_cons]
    rcases map_eq_map_cases (h s i) with ⟨e, hf, hg⟩ | ⟨t, l, hf, hg, ht⟩
    · rw [hf, hg]
      rfl
    · have hrest := ih t
      rw [ht] at hrest
      rw [hf, hg]
      change (is.foldlM f t).map get = _
      rw [hrest]
      cases is.mapM g with
      | error e => rfl
      | ok ls => simp [bind, Except.bind, Except.map, pure, Except.pure]

/-- Loops whose rounds agree on the items of the list. -/
theorem foldlM_congr {f g : σ → ι → Except ε σ} {is : List ι} (h : ∀ s, ∀ i ∈ is, f s i = g s i) (s : σ) :
    is.foldlM f s = is.foldlM g s := by
  induction is generalizing s with
  | nil => rfl
  | cons i is ih =>
    rw [List.foldlM_cons, List.foldlM_cons, h s i List.mem_cons_self]
    exact bind_congr (ih (fun t j hj => h t j (List.mem_cons_of_mem i hj)))

/-- Both computations run to their end, with related results, or both exit early. -/
inductive LiftRel {ε' β : Type} (E : ε → ε' → Prop) (R : α → β → Prop) :
    Except ε α → Except ε' β → Prop
  | ok {a : α} {b : β} (h : R a b) : LiftRel E R (.ok a) (.ok b)
  | error {e : ε} {e' : ε'} (h : E e e') : LiftRel E R (.error e) (.error e')

theorem LiftRel.bind {ε' γ δ : Type} {E : ε → ε' → Prop} {R : α → β → Prop} {Q : γ → δ → Prop}
    {p : Except ε α} {q : Except ε' β} {f : α → Except ε γ} {g : β → Except ε' δ}
    (h : LiftRel E R p q) (hf : ∀ a b, R a b → LiftRel E Q (f a) (g b)) :
    LiftRel E Q (p >>= f) (q >>= g) := by
  cases h with
  | ok h => exact hf _ _ h
  | error h => exact .error h

theorem LiftRel.foldlM {ε' τ : Type} {E : ε → ε' → Prop} {R : σ → τ → Prop}
    {f : σ → ι → Except ε σ} {g : τ → ι → Except ε' τ}
    (hf : ∀ s t i, R s t → LiftRel E R (f s i) (g t i)) (is : List ι) {s : σ} {t : τ} (h : R s t) :
    LiftRel E R (is.foldlM f s) (is.foldlM g t) := by
  induction is generalizing s t with
  | nil => exact .ok h
  | cons i is ih =>
    rw [List.foldlM_cons, List.foldlM_cons]
    exact (hf s t i h).bind (fun _ _ h => ih h)

theorem LiftRel.eq_ok {ε' : Type} {E : ε → ε' → Prop} {R : α → β → Prop} {a : α}
    {q : Except ε' β} (h : LiftRel E R (.ok a) q) : ∃ b, q = .ok b ∧ R a b := by
  cases h with
  | ok h => exact ⟨_, rfl, h⟩

end

end SecureChaincode
