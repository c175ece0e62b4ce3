import Mathlib

/-! Ordered maps under the two ways a `std::map` is filled: `insert`, which keeps
an entry that is already there, and assignment, which replaces it. -/
namespace SecureChaincode

open Std

section
variable {α β : Type*} {cmp : α → α → Ordering} [TransCmp cmp]

/-- Offer the pairs one after the other; a key that has an entry keeps it. -/
def insertAll (m : ExtTreeMap α β cmp) (l : List (α × β)) : ExtTreeMap α β cmp :=
  l.foldl (fun m p => m.insertIfNew p.1 p.2) m

/-- Assign every entry of `u` into `m`. -/
def assignAll (m u : ExtTreeMap α β cmp) : ExtTreeMap α β cmp :=
  u.foldl (fun m k v => m.insert k v) m

theorem insertAll_append (m : ExtTreeMap α β cmp) (l l' : List (α × β)) :
    insertAll m (l ++ l') = insertAll (insertAll m l) l' := by
  simp only [insertAll, List.foldl_append]

variable [LawfulEqCmp cmp] [BEq α] [LawfulBEq α]

theorem mem_of_lookup_eq_some {l : List (α × β)} {k : α} {v : β} (h : l.lookup k = some v) :
    (k, v) ∈ l := by
  obtain ⟨l₁, l₂, hsplit, -⟩ := List.lookup_eq_some_iff.mp h
  rw [hsplit]
  exact List.mem_append_right l₁ List.mem_cons_self

theorem getElem?_insertIfNew_or (m : ExtTreeMap α β cmp) (k a : α) (v : β) :
    (m.insertIfNew k v)[a]? = m[a]?.or (if k == a then some v else none) := by
  simp only [ExtTreeMap.getElem?_insertIfNew, LawfulEqCmp.compare_eq_iff_eq]
  by_cases hk : k = a
  · subst hk
    by_cases hm : k ∈ m <;> simp [hm]
  · simp [hk]

/-- Among the offered pairs the first one for a new key wins. -/
theorem getElem?_insertAll (m : ExtTreeMap α β cmp) (l : List (α × β)) (k : α) :
    (insertAll m l)[k]? = m[k]?.or (l.lookup k) := by
  induction l generalizing m with
  | nil => simp [insertAll]
  | cons p l ih =>
    have h := ih (m.insertIfNew p.1 p.2)
    simp only [insertAll, List.foldl_cons] at h ⊢
    rw [h, getElem?_insertIfNew_or, Option.or_assoc, List.lookup_cons]
    -- the first pair comes before the others, and after what the map has
    by_cases hk : p.1 = k
    · simp [hk]
    · have hk' : (k == p.1) = false := by simpa using fun e => hk e.symm
      simp [hk, hk']

/-- What is in a map that was filled from nothing has been offered to it. -/
theorem mem_of_getElem?_insertAll_empty {l : List (α × β)} {k : α} {v : β}
    (h : (insertAll (∅ : ExtTreeMap α β cmp) l)[k]? = some v) : (k, v) ∈ l := by
  rw [getElem?_insertAll, ExtTreeMap.getElem?_empty, Option.none_or] at h
  exact mem_of_lookup_eq_some h

/-- The keys of such a map are the keys that were offered. -/
theorem mem_keys_insertAll_empty {l : List (α × β)} {k : α} :
    k ∈ (insertAll (∅ : ExtTreeMap α β cmp) l).keys ↔ k ∈ l.map Prod.fst := by
  rw [ExtTreeMap.mem_keys, ExtTreeMap.mem_iff_isSome_getElem?, getElem?_insertAll, ExtTreeMap.getElem?_empty,
    Option.none_or, List.lookup_isSome_iff, List.mem_map]
  constructor
  · rintro ⟨p, hp, he⟩
    exact ⟨p, hp, (beq_iff_eq.mp he).symm⟩
  · rintro ⟨p, hp, he⟩
    exact ⟨p, hp, beq_iff_eq.mpr he.symm⟩

/-- As many entries as pairs means that no two pairs have the same key. -/
theorem size_insertAll_eq_length_iff {l : List (α × β)} :
    (insertAll (∅ : ExtTreeMap α β cmp) l).size = l.length ↔ (l.map Prod.fst).Nodup := by
  have hkeys : (insertAll (∅ : ExtTreeMap α β cmp) l).keys.Nodup := ExtTreeMap.nodup_keys
  rw [← ExtTreeMap.length_keys, ← List.length_map Prod.fst]
  constructor
  · intro hlen
    have hsub := hkeys.subperm (fun k hk => mem_keys_insertAll_empty.mp hk)
    exact (hsub.perm_of_length_le hlen.ge).nodup_iff.mp hkeys
  · intro hnodup
    have hperm := (List.perm_ext_iff_of_nodup hkeys hnodup).mpr (fun k => mem_keys_insertAll_empty)
    exact hperm.length_eq

theorem getElem?_insertAll_of_some {m : ExtTreeMap α β cmp} {k : α} {v : β}
    (l : List (α × β)) (h : m[k]? = some v) : (insertAll m l)[k]? = some v := by
  rw [getElem?_insertAll, h, Option.some_or]

/-- Nothing changes exactly when every offered key is already there. -/
theorem insertAll_eq_self_iff (m : ExtTreeMap α β cmp) (l : List (α × β)) :
    insertAll m l = m ↔ ∀ p ∈ l, p.1 ∈ m := by
  constructor
  · intro h p hp
    by_contra hn
    -- a key that was not there has an entry now
    have hk : m[p.1]? = none := ExtTreeMap.getElem?_eq_none hn
    have hl : l.lookup p.1 = none := by
      have he := getElem?_insertAll m l p.1
      rw [h, hk, Option.none_or] at he
      exact he.symm
    exact absurd hl (by rw [List.lookup_eq_none_iff]; push Not; exact ⟨p, hp, by simp⟩)
  · intro h
    apply ExtTreeMap.ext_getElem?
    intro k
    rw [getElem?_insertAll]
    cases hk : m[k]? with
    | some v => rfl
    | none =>
      rw [Option.none_or, List.lookup_eq_none_iff]
      intro p hp
      have hm := h p hp
      have hne : k ≠ p.1 := by
        intro he
        rw [← he, ExtTreeMap.mem_iff_isSome_getElem?, hk] at hm
        exact absurd hm (by simp)
      simpa using hne

theorem lookup_eq_some_of_unique {l : List (α × β)} {k : α} {v : β} (hm : (k, v) ∈ l)
    (hu : ∀ w, (k, w) ∈ l → w = v) : l.lookup k = some v := by
  cases hl : l.lookup k with
  | none =>
    rw [List.lookup_eq_none_iff] at hl
    exact absurd (hl _ hm) (by simp)
  | some w =>
    rw [hu w (mem_of_lookup_eq_some hl)]

/-- Of the assigned pairs the last one for a key wins. -/
theorem getElem?_foldl_insert (l : List (α × β)) (m : ExtTreeMap α β cmp) (k : α) :
    (l.foldl (fun m p => m.insert p.1 p.2) m)[k]? = (l.reverse.lookup k).or m[k]? := by
  induction l generalizing m with
  | nil => simp
  | cons p l ih =>
    rw [List.foldl_cons, ih, List.reverse_cons, List.lookup_append, Option.or_assoc, List.lookup_cons]
    simp only [ExtTreeMap.getElem?_insert, LawfulEqCmp.compare_eq_iff_eq]
    by_cases hk : p.1 = k
    · simp [hk]
    · have hk' : (k == p.1) = false := by simpa using fun e => hk e.symm
      simp [hk, hk']

omit [LawfulEqCmp cmp] in
/-- In a list of the entries of a map, in whatever order, a lookup finds what the map has. -/
theorem lookup_of_mem_iff {u : ExtTreeMap α β cmp} {l : List (α × β)}
    (h : ∀ k v, (k, v) ∈ l ↔ u[k]? = some v) (k : α) : l.lookup k = u[k]? := by
  cases hk : u[k]? with
  | none =>
    rw [List.lookup_eq_none_iff]
    rintro ⟨a, b⟩ hp
    have hne : k ≠ a := by
      rintro rfl
      rw [h, hk] at hp
      cases hp
    simpa using hne
  | some v =>
    apply lookup_eq_some_of_unique ((h k v).mpr hk)
    intro w hw
    rw [h, hk] at hw
    exact (Option.some.inj hw).symm

theorem lookup_toList (u : ExtTreeMap α β cmp) (k : α) : u.toList.lookup k = u[k]? :=
  lookup_of_mem_iff (fun _ _ => ExtTreeMap.mem_toList_iff_getElem?_eq_some) k

/-- After the assignment the entries of `u` cover those of `m`. -/
theorem getElem?_assignAll (m u : ExtTreeMap α β cmp) (k : α) :
    (assignAll m u)[k]? = u[k]?.or m[k]? := by
  have hlast : u.toList.reverse.lookup k = u[k]? := by
    apply lookup_of_mem_iff
    intro k v
    rw [List.mem_reverse, ExtTreeMap.mem_toList_iff_getElem?_eq_some]
  rw [assignAll, ExtTreeMap.foldl_eq_foldl_toList, getElem?_foldl_insert, hlast]

theorem assignAll_empty (m : ExtTreeMap α β cmp) : assignAll m ∅ = m := by
  apply ExtTreeMap.ext_getElem?
  intro k
  rw [getElem?_assignAll, ExtTreeMap.getElem?_empty, Option.none_or]

omit [LawfulEqCmp cmp] [BEq α] [LawfulBEq α] in
theorem ne_of_cmp_lt {a b : α} (h : cmp a b = .lt) : a ≠ b := by
  rintro rfl
  have hself : cmp a a = .eq := ReflCmp.compare_self
  rw [hself] at h
  cases h

omit [LawfulEqCmp cmp] [BEq α] [LawfulBEq α] in
/-- Strictly sorted lists with the same members are equal. -/
theorem eq_of_sorted_of_mem_iff {γ : Type*} (key : γ → α) {l l' : List γ}
    (hl : l.Pairwise (fun a b => cmp (key a) (key b) = .lt))
    (hl' : l'.Pairwise (fun a b => cmp (key a) (key b) = .lt)) (h : ∀ x, x ∈ l ↔ x ∈ l') : l = l' := by
  have hirrefl (a b : γ) (hab : cmp (key a) (key b) = .lt) : a ≠ b :=
    fun he => ne_of_cmp_lt hab (congrArg key he)
  have hperm : l.Perm l' :=
    (List.perm_ext_iff_of_nodup (hl.imp (hirrefl _ _)) (hl'.imp (hirrefl _ _))).mpr h
  refine List.Perm.eq_of_pairwise ?_ hl hl' hperm
  intro a b _ _ hab hba
  have hswap : cmp (key a) (key b) = (cmp (key b) (key a)).swap := OrientedCmp.eq_swap
  rw [hab, hba] at hswap
  cases hswap

omit [BEq α] [LawfulBEq α] in
/-- A sorted list with the entries of a map is the list of the map. -/
theorem toList_eq_of_sorted {m : ExtTreeMap α β cmp} {l : List (α × β)}
    (hl : l.Pairwise (fun a b => cmp a.1 b.1 = .lt)) (h : ∀ k v, (k, v) ∈ l ↔ m[k]? = some v) :
    m.toList = l := by
  apply eq_of_sorted_of_mem_iff Prod.fst ExtTreeMap.ordered_keys_toList hl
  rintro ⟨k, v⟩
  rw [ExtTreeMap.mem_toList_iff_getElem?_eq_some, h]

/-- A map that is filled with the members of a sorted list, in whatever order, has this
list. -/
theorem toList_insertAll_of_mem_iff {l l' : List (α × β)}
    (hl : l.Pairwise (fun a b => cmp a.1 b.1 = .lt)) (h : ∀ p, p ∈ l' ↔ p ∈ l) :
    (insertAll (∅ : ExtTreeMap α β cmp) l').toList = l := by
  have hkeys : (l.map Prod.fst).Nodup := by
    rw [List.Nodup, List.pairwise_map]
    exact hl.imp ne_of_cmp_lt
  apply toList_eq_of_sorted hl
  intro k v
  rw [getElem?_insertAll, ExtTreeMap.getElem?_empty, Option.none_or]
  constructor
  · intro hm
    apply lookup_eq_some_of_unique ((h _).mpr hm)
    intro w hw
    exact (Prod.mk.inj (List.inj_on_of_nodup_map hkeys ((h _).mp hw) hm rfl)).2
  · intro hm
    exact (h _).mp (mem_of_lookup_eq_some hm)

theorem toList_insertAll_of_sorted {l : List (α × β)}
    (hl : l.Pairwise (fun a b => cmp a.1 b.1 = .lt)) :
    (insertAll (∅ : ExtTreeMap α β cmp) l).toList = l :=
  toList_insertAll_of_mem_iff hl (fun _ => Iff.rfl)

omit [BEq α] [LawfulBEq α] in
theorem setToList_eq_of_sorted {s : ExtTreeSet α cmp} {l : List α}
    (hl : l.Pairwise (fun a b => cmp a b = .lt)) (h : ∀ k, k ∈ l ↔ k ∈ s) : s.toList = l := by
  apply eq_of_sorted_of_mem_iff id ExtTreeSet.ordered_toList hl
  intro k
  rw [ExtTreeSet.mem_toList, h]

omit [BEq α] [LawfulBEq α] in
/-- What is in a set after some insertions. -/
theorem mem_foldl_insert (keys : List α) (s : ExtTreeSet α cmp) (k : α) :
    k ∈ keys.foldl (fun r a => r.insert a) s ↔ k ∈ keys ∨ k ∈ s := by
  induction keys generalizing s with
  | nil => simp
  | cons a keys ih =>
    rw [List.foldl_cons, ih, ExtTreeSet.mem_insert, LawfulEqCmp.compare_eq_iff_eq, List.mem_cons]
    constructor
    · rintro (h | rfl | h)
      · exact Or.inl (Or.inr h)
      · exact Or.inl (Or.inl rfl)
      · exact Or.inr h
    · rintro ((rfl | h) | h)
      · exact Or.inr (Or.inl rfl)
      · exact Or.inl h
      · exact Or.inr (Or.inr h)

omit [LawfulEqCmp cmp] [TransCmp cmp] in
/-- A lookup under keys that were renamed by `g`, where `h` undoes the renaming. -/
theorem lookup_map_key {γ : Type*} [BEq γ] [LawfulBEq γ] {g : α → γ} {h : γ → α} {l : List (α × β)}
    (hl : ∀ p ∈ l, h (g p.1) = p.1) {f : γ} (hf : g (h f) = f) :
    (l.map (fun p => (g p.1, p.2))).lookup f = l.lookup (h f) := by
  induction l with
  | nil => rfl
  | cons p l ih =>
    obtain ⟨hp, hl⟩ := List.forall_mem_cons.mp hl
    rw [List.map_cons, List.lookup_cons, List.lookup_cons, ih hl]
    have hiff : f = g p.1 ↔ h f = p.1 := ⟨fun e => by rw [e, hp], fun e => by rw [← e, hf]⟩
    by_cases he : h f = p.1
    · rw [beq_iff_eq.mpr he, beq_iff_eq.mpr (hiff.mpr he)]
    · rw [beq_eq_false_iff_ne.mpr he, beq_eq_false_iff_ne.mpr (fun e => he (hiff.mp e))]

omit [BEq α] [LawfulBEq α] in
/-- Sorting a list gives the strictly sorted list of its members when it has no member
twice, and only then. -/
theorem mergeSort_eq_iff_nodup {l l' : List α} (hl' : l'.Pairwise (fun a b => cmp a b = .lt))
    (h : ∀ k, k ∈ l ↔ k ∈ l') : l.mergeSort (fun a b => (cmp a b).isLE) = l' ↔ l.Nodup := by
  have hperm := List.mergeSort_perm l (fun a b => (cmp a b).isLE)
  have hnodup' : l'.Nodup := hl'.imp ne_of_cmp_lt
  constructor
  · intro he
    rw [← hperm.nodup_iff, he]
    exact hnodup'
  · intro hnodup
    have hsorted : (l.mergeSort (fun a b => (cmp a b).isLE)).Pairwise (fun a b => (cmp a b).isLE = true) := by
      apply List.pairwise_mergeSort
      · exact fun a b c hab hbc => TransCmp.isLE_trans hab hbc
      · intro a b
        have hswap : cmp a b = (cmp b a).swap := OrientedCmp.eq_swap
        rw [hswap]
        cases cmp b a <;> rfl
    apply eq_of_sorted_of_mem_iff id ?_ hl' (fun k => by rw [List.mem_mergeSort, h])
    -- neighbours differ, so the order is strict
    apply hsorted.imp₂ ?_ (hperm.nodup_iff.mpr hnodup)
    intro a b hle hne
    cases hab : cmp a b with
    | lt => exact hab
    | eq => exact absurd (LawfulEqCmp.compare_eq_iff_eq.mp hab) hne
    | gt =>
      rw [hab] at hle
      cases hle

end

end SecureChaincode
