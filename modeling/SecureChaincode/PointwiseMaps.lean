import SecureChaincode.OrderedStore

/-! Ordered maps with the same keys, in which the values of each key are related. -/
namespace SecureChaincode

open Std

section
variable {β γ β' γ' : Type*} {R : β → γ → Prop} {o p : Option β} {o' p' : Option γ}

theorem optionRel_or (h : Option.Rel R o o') (hp : Option.Rel R p p') : Option.Rel R (o.or p) (o'.or p') := by
  cases h with
  | none => simpa only [Option.none_or] using hp
  | some hR => exact .some hR

theorem optionRel_map {R' : β' → γ' → Prop} {f : β → β'} {g : γ → γ'} (h : Option.Rel R o o')
    (hfg : ∀ v w, R v w → R' (f v) (g w)) : Option.Rel R' (o.map f) (o'.map g) := by
  cases h with
  | none => exact .none
  | some hR => exact .some (hfg _ _ hR)

theorem optionRel_eq {o p : Option β} (h : Option.Rel Eq o p) : o = p := by
  cases h with
  | none => rfl
  | some heq => rw [heq]

end

section
variable {α β γ : Type*} {cmp : α → α → Ordering} [TransCmp cmp]

/-- The maps have the same keys, and related values under them. -/
def Pointwise (R : α → β → γ → Prop) (m : ExtTreeMap α β cmp) (m' : ExtTreeMap α γ cmp) : Prop :=
  ∀ k, Option.Rel (R k) m[k]? m'[k]?

variable {R : α → β → γ → Prop} {m : ExtTreeMap α β cmp} {m' : ExtTreeMap α γ cmp}

theorem pointwise_empty (R : α → β → γ → Prop) :
    Pointwise R (∅ : ExtTreeMap α β cmp) (∅ : ExtTreeMap α γ cmp) := by
  intro k
  rw [ExtTreeMap.getElem?_empty, ExtTreeMap.getElem?_empty]
  exact .none

theorem Pointwise.refl {R : α → β → β → Prop} (hR : ∀ k v, R k v v) (m : ExtTreeMap α β cmp) : Pointwise R m m := by
  intro k
  cases m[k]? with
  | none => exact .none
  | some v => exact .some (hR k v)

theorem Pointwise.of_some (h : Pointwise R m m') {k : α} {v : β} {w : γ} (hv : m[k]? = some v) (hw : m'[k]? = some w) :
    R k v w := by
  have hk := h k
  rw [hv, hw] at hk
  cases hk with
  | some hR => exact hR

variable [LawfulEqCmp cmp]

theorem Pointwise.insert (h : Pointwise R m m') {k : α} {v : β} {w : γ} (hR : R k v w) :
    Pointwise R (m.insert k v) (m'.insert k w) := by
  intro a
  rw [ExtTreeMap.getElem?_insert, ExtTreeMap.getElem?_insert]
  split_ifs with hk
  · obtain rfl := LawfulEqCmp.eq_of_compare hk
    exact .some hR
  · exact h a

/-- What is related in another way behind a function on both sides. -/
theorem Pointwise.map {β' γ' : Type*} {R' : α → β' → γ' → Prop} {f : α → β → β'} {g : α → γ → γ'} (h : Pointwise R m m')
    (hfg : ∀ k v w, R k v w → R' k (f k v) (g k w)) : Pointwise R' (m.map f) (m'.map g) := by
  intro k
  rw [ExtTreeMap.getElem?_map, ExtTreeMap.getElem?_map]
  exact optionRel_map (h k) (hfg k)

/-- What is the same for related values makes the same map of both. -/
theorem Pointwise.map_eq {δ : Type*} {f : α → β → δ} {g : α → γ → δ} (h : Pointwise R m m')
    (hfg : ∀ k v w, R k v w → f k v = g k w) : m.map f = m'.map g := by
  apply ExtTreeMap.ext_getElem?
  intro k
  exact optionRel_eq (h.map hfg k)

/-- The lists of the two maps go along with each other. -/
theorem Pointwise.toList (h : Pointwise R m m') :
    List.Forall₂ (fun p q => p.1 = q.1 ∧ R p.1 p.2 q.2) m.toList m'.toList := by
  have hkeys : m.toList.map Prod.fst = m'.toList.map Prod.fst := by
    have hunit : m.map (fun _ _ => ()) = m'.map (fun _ _ => ()) := h.map_eq (fun _ _ _ _ => rfl)
    have hlist := congrArg (fun u : ExtTreeMap α Unit cmp => u.toList.map Prod.fst) hunit
    simpa [ExtTreeMap.toList_map, List.map_map, Function.comp_def] using hlist
  have hlen : m.toList.length = m'.toList.length := by
    have hlist := congrArg List.length hkeys
    simpa only [List.length_map] using hlist
  refine List.forall₂_iff_get.mpr ⟨hlen, fun i hi hi' => ?_⟩
  have hfst : (m.toList.get ⟨i, hi⟩).1 = (m'.toList.get ⟨i, hi'⟩).1 := by
    have hget := congrArg (fun l : List α => l[i]?) hkeys
    rwa [List.getElem?_map, List.getElem?_map, List.getElem?_eq_getElem hi, List.getElem?_eq_getElem hi',
      Option.map_some, Option.map_some, Option.some_inj] at hget
  refine ⟨hfst, h.of_some (ExtTreeMap.mem_toList_iff_getElem?_eq_some.mp (List.get_mem _ _)) ?_⟩
  rw [hfst]
  exact ExtTreeMap.mem_toList_iff_getElem?_eq_some.mp (List.get_mem _ _)

variable [BEq α] [LawfulBEq α]

theorem Pointwise.insertIfNew (h : Pointwise R m m') {k : α} {v : β} {w : γ} (hR : R k v w) :
    Pointwise R (m.insertIfNew k v) (m'.insertIfNew k w) := by
  intro a
  rw [getElem?_insertIfNew_or, getElem?_insertIfNew_or]
  refine optionRel_or (h a) ?_
  split_ifs with hk
  · exact .some (eq_of_beq hk ▸ hR)
  · exact .none

theorem Pointwise.assignAll {u : ExtTreeMap α β cmp} {u' : ExtTreeMap α γ cmp} (h : Pointwise R m m')
    (hu : Pointwise R u u') : Pointwise R (assignAll m u) (assignAll m' u') := by
  intro k
  rw [getElem?_assignAll, getElem?_assignAll]
  exact optionRel_or (hu k) (h k)

end

end SecureChaincode
