import SecureChaincode.Exec
import SecureChaincode.OrderedStore

/-! The registry of `ecc/enclave/enclave_stub.go`, through which the callbacks of the enclave
find the stubs of their transaction, under calls of `StubImpl.Invoke` that run at the same
time. -/
namespace SecureChaincode

open Std

/-- `Registry`. The stubs of a call are named by the number of the call. -/
structure Registry where
  index : ℕ
  internal : ExtTreeMap ℕ ℕ compare

def Registry.new : Registry := ⟨0, ∅⟩

/-- The part of `Register` under the lock. Its result is read from `index` after that. -/
def Registry.add (r : Registry) (stubs : ℕ) : Registry :=
  ⟨r.index+1, r.internal.insert (r.index+1) stubs⟩

def Registry.release (r : Registry) (i : ℕ) : Registry := { r with internal := r.internal.erase i }

/-- `none` is the panic `No shim for`. -/
def Registry.get (r : Registry) (i : ℕ) : Option ℕ := r.internal[i]?

/-- How far a call is: its stubs are stored, it has read the index it works with, or it has
released that index on its way out. -/
inductive CallPhase
  | registered
  | holding (index : ℕ)
  | returned (index : ℕ)
deriving DecidableEq

def CallPhase.index? : CallPhase → Option ℕ
  | .registered => none
  | .holding i => some i
  | .returned i => some i

def CallPhase.InProgress : CallPhase → Prop
  | .returned _ => False
  | _ => True

/-- The registry and the calls, in the order in which they came. -/
structure StubCalls where
  registry : Registry
  calls : List CallPhase

def noCalls : StubCalls := ⟨.new, []⟩

/-- The steps of the calls, which are named by their number. -/
inductive StubAction
  | register
  | readIndex (call : ℕ)
  | get (call : ℕ)
  | release (call : ℕ)
deriving DecidableEq

/-- One step, with the answer to a callback. `none` when the call is not at this point. -/
def StubCalls.step (S : StubCalls) : StubAction → Option (StubCalls × Option (ℕ × Option ℕ))
  | .register => some (⟨S.registry.add S.calls.length, S.calls ++ [.registered]⟩, none)
  | .readIndex c =>
    match S.calls[c]? with
    | some .registered => some ({ S with calls := S.calls.set c (.holding S.registry.index) }, none)
    | _ => none
  | .get c =>
    match S.calls[c]? with
    | some (.holding i) => some (S, some (c, S.registry.get i))
    | _ => none
  | .release c =>
    match S.calls[c]? with
    | some (.holding i) => some (⟨S.registry.release i, S.calls.set c (.returned i)⟩, none)
    | _ => none

/-- What the calls rely on, over a whole run. -/
structure PrivateSlots (actions : List StubAction) : Prop where
  distinct : ∀ S : StubCalls, Visits StubCalls.step noCalls actions S →
    ∀ c d i : ℕ, S.calls[c]? = some (.holding i) → S.calls[d]? = some (.holding i) → c = d
  own : ∀ (S : StubCalls) answers, exec StubCalls.step noCalls actions = some (S, answers) →
    ∀ c stubs, some (c, stubs) ∈ answers → stubs = some c
  empty : ∀ S : StubCalls, Visits StubCalls.step noCalls actions S →
    (∀ p ∈ S.calls, ¬p.InProgress) → S.registry.internal = ∅

def registrations (actions : List StubAction) : ℕ := actions.countP (· = .register)

/-- Every call reads the index before the next call registers. -/
def Undisturbed (actions : List StubAction) : Prop :=
  ∀ pre c post, actions = pre ++ .readIndex c :: post → registrations pre = c+1

/-- What each kind of step does. -/
theorem stubStep_cases {S S' : StubCalls} {a : StubAction} {o : Option (ℕ × Option ℕ)}
    (h : S.step a = some (S', o)) :
    (a = .register ∧ o = none ∧
        S' = ⟨S.registry.add S.calls.length, S.calls ++ [.registered]⟩) ∨
      (∃ c, a = .readIndex c ∧ o = none ∧ S.calls[c]? = some .registered ∧
        S' = ⟨S.registry, S.calls.set c (.holding S.registry.index)⟩) ∨
      (∃ c i, a = .get c ∧ S.calls[c]? = some (.holding i) ∧ o = some (c, S.registry.get i) ∧ S' = S) ∨
      (∃ c i, a = .release c ∧ o = none ∧ S.calls[c]? = some (.holding i) ∧
        S' = ⟨S.registry.release i, S.calls.set c (.returned i)⟩) := by
  cases a with
  | register =>
    cases h
    exact Or.inl ⟨rfl, rfl, rfl⟩
  | readIndex c =>
    dsimp only [StubCalls.step] at h
    split at h
    · rename_i hc
      cases h
      exact Or.inr (Or.inl ⟨c, rfl, rfl, hc, rfl⟩)
    · cases h
  | get c =>
    dsimp only [StubCalls.step] at h
    split at h
    · rename_i i hc
      cases h
      exact Or.inr (Or.inr (Or.inl ⟨c, i, rfl, hc, rfl, rfl⟩))
    · cases h
  | release c =>
    dsimp only [StubCalls.step] at h
    split at h
    · rename_i i hc
      cases h
      exact Or.inr (Or.inr (Or.inr ⟨c, i, rfl, rfl, hc, rfl⟩))
    · cases h

/-- What holds of registry and calls in every interleaving. An index is only taken out of the
registry by a call that holds it, and no call holds one from before its registration. -/
structure RegistryInv (S : StubCalls) : Prop where
  index_eq : S.registry.index = S.calls.length
  bounds : ∀ (c : ℕ) p i, S.calls[c]? = some p → p.index? = some i → c+1 ≤ i ∧ i ≤ S.calls.length
  stubs : ∀ i x : ℕ, S.registry.internal[i]? = some x → i = x+1 ∧ x < S.calls.length
  kept : ∀ c, c < S.calls.length →
    S.registry.internal[c+1]? = some c ∨ ∃ d : ℕ, S.calls[d]? = some (.returned (c+1))
  gone : ∀ d i : ℕ, S.calls[d]? = some (.returned i) → S.registry.internal[i]? = none

theorem registryInv_noCalls : RegistryInv noCalls where
  index_eq := rfl
  bounds _ _ _ h := by cases h
  stubs _ _ h := by simp [noCalls, Registry.new] at h
  kept _ h := by cases h
  gone _ _ h := by cases h

theorem RegistryInv.register {S : StubCalls} (hi : RegistryInv S) :
    RegistryInv ⟨S.registry.add S.calls.length, S.calls ++ [.registered]⟩ := by
  have hinternal (i : ℕ) : (S.registry.add S.calls.length).internal[i]? =
      if S.calls.length+1 = i then some S.calls.length else S.registry.internal[i]? := by
    rw [Registry.add, hi.index_eq, ExtTreeMap.getElem?_insert]
    simp only [LawfulEqCmp.compare_eq_iff_eq]
  have hlength : (S.calls ++ [CallPhase.registered]).length = S.calls.length+1 := List.length_append
  constructor
  · rw [Registry.add, hi.index_eq, hlength]
  · intro c p i hc hp
    rw [hlength]
    rcases getElem?_snoc hc with hc | ⟨-, rfl⟩
    · have hle := hi.bounds c p i hc hp
      omega
    · cases hp
  · intro i x hx
    rw [hlength]
    rw [hinternal] at hx
    split_ifs at hx with he
    · cases hx
      omega
    · have hle := hi.stubs i x hx
      omega
  · intro c hc
    rw [hlength] at hc
    rw [hinternal]
    rcases Nat.lt_succ_iff_lt_or_eq.mp hc with hc | rfl
    · rw [if_neg (by omega)]
      rcases hi.kept c hc with hk | ⟨d, hd⟩
      · exact Or.inl hk
      · exact Or.inr ⟨d, by grind⟩
    · exact Or.inl (if_pos rfl)
  · intro d i hd
    rcases getElem?_snoc hd with hd | ⟨-, he⟩
    · have hle := (hi.bounds d _ i hd rfl).2
      rw [hinternal, if_neg (by omega)]
      exact hi.gone d i hd
    · cases he

theorem RegistryInv.readIndex {S : StubCalls} {c : ℕ} (hi : RegistryInv S)
    (hc : S.calls[c]? = some .registered) :
    RegistryInv ⟨S.registry, S.calls.set c (.holding S.registry.index)⟩ := by
  have hlt : c < S.calls.length := (List.getElem?_eq_some_iff.mp hc).1
  constructor
  · rw [List.length_set]
    exact hi.index_eq
  · intro d p i hd hp
    rw [List.length_set]
    rcases getElem?_set_cases hd with ⟨rfl, rfl⟩ | ⟨-, hd⟩
    · cases hp
      rw [hi.index_eq]
      omega
    · exact hi.bounds d p i hd hp
  · intro i x hx
    rw [List.length_set]
    exact hi.stubs i x hx
  · intro d hd
    rw [List.length_set] at hd
    rcases hi.kept d hd with hk | ⟨e, he⟩
    · exact Or.inl hk
    · -- the call that has released the index is another one
      exact Or.inr ⟨e, by grind⟩
  · intro d i hd
    rcases getElem?_set_cases hd with ⟨-, he⟩ | ⟨-, hd⟩
    · cases he
    · exact hi.gone d i hd

theorem RegistryInv.release {S : StubCalls} {c i : ℕ} (hi : RegistryInv S)
    (hc : S.calls[c]? = some (.holding i)) :
    RegistryInv ⟨S.registry.release i, S.calls.set c (.returned i)⟩ := by
  have hinternal (j : ℕ) : (S.registry.release i).internal[j]? =
      if i = j then none else S.registry.internal[j]? := by
    rw [Registry.release, ExtTreeMap.getElem?_erase]
    simp only [LawfulEqCmp.compare_eq_iff_eq]
  have hlt : c < S.calls.length := (List.getElem?_eq_some_iff.mp hc).1
  constructor
  · rw [List.length_set]
    exact hi.index_eq
  · intro d p j hd hp
    rw [List.length_set]
    rcases getElem?_set_cases hd with ⟨rfl, rfl⟩ | ⟨-, hd⟩
    · cases hp
      exact hi.bounds d _ i hc rfl
    · exact hi.bounds d p j hd hp
  · intro j x hx
    rw [List.length_set]
    rw [hinternal] at hx
    split_ifs at hx with he
    exact hi.stubs j x hx
  · intro d hd
    rw [List.length_set] at hd
    rw [hinternal]
    by_cases he : i = d+1
    · exact Or.inr ⟨c, by grind⟩
    · rw [if_neg he]
      rcases hi.kept d hd with hk | ⟨e, hret⟩
      · exact Or.inl hk
      · exact Or.inr ⟨e, by grind⟩
  · intro d j hd
    rw [hinternal]
    split_ifs with he
    · rfl
    · rcases getElem?_set_cases hd with ⟨-, hj⟩ | ⟨-, hd⟩
      · cases hj
        exact absurd rfl he
      · exact hi.gone d j hd

/-- Step lemma. -/
theorem RegistryInv.step {S S' : StubCalls} {a : StubAction} {o : Option (ℕ × Option ℕ)}
    (hi : RegistryInv S) (h : S.step a = some (S', o)) : RegistryInv S' := by
  rcases stubStep_cases h with ⟨-, -, rfl⟩ | ⟨c, -, -, hc, rfl⟩ | ⟨c, i, -, -, -, rfl⟩ | ⟨c, i, -, -, hc, rfl⟩
  · exact hi.register
  · exact hi.readIndex hc
  · exact hi
  · exact hi.release hc

/-- Run lemma, with the number of calls. -/
theorem registryInv_of_exec {actions : List StubAction} {S : StubCalls} {answers : List (Option (ℕ × Option ℕ))}
    (h : exec StubCalls.step noCalls actions = some (S, answers)) :
    RegistryInv S ∧ S.calls.length = registrations actions := by
  apply exec_invariant StubCalls.step (fun is _ t => RegistryInv t ∧ t.calls.length = registrations is) _ _ h
  · exact ⟨registryInv_noCalls, rfl⟩
  · intro is os t a t' o _ ⟨hi, hl⟩ hs
    refine ⟨hi.step hs, ?_⟩
    rw [registrations, List.countP_append, ← registrations, ← hl]
    rcases stubStep_cases hs with ⟨rfl, -, rfl⟩ | ⟨c, rfl, -, hc, rfl⟩ | ⟨c, i, rfl, -, -, rfl⟩ |
      ⟨c, i, rfl, -, hc, rfl⟩ <;> simp

/-- Every call that has read an index has read its own. -/
def HoldOwn (S : StubCalls) : Prop := ∀ (c : ℕ) p i, S.calls[c]? = some p → p.index? = some i → i = c+1

/-- In an undisturbed run every call holds its own index. -/
theorem holdOwn_of_undisturbed {actions : List StubAction} {S : StubCalls}
    {answers : List (Option (ℕ × Option ℕ))} (h : exec StubCalls.step noCalls actions = some (S, answers))
    (hu : Undisturbed actions) : HoldOwn S := by
  have hinv : ∀ is os t, exec StubCalls.step noCalls is = some (t, os) → is <+: actions → HoldOwn t := by
    intro is os t hrun
    apply exec_invariant StubCalls.step (fun is _ t => is <+: actions → HoldOwn t) _ _ hrun
    · intro _ c p i hc
      cases hc
    · intro is os t a t' o hrun ih hs hpre c p i hc hp
      have ih := ih ((List.prefix_append is [a]).trans hpre)
      rcases stubStep_cases hs with ⟨rfl, -, rfl⟩ | ⟨d, rfl, -, hd, rfl⟩ | ⟨d, j, rfl, -, -, rfl⟩ |
        ⟨d, j, rfl, -, hd, rfl⟩
      · rcases getElem?_snoc hc with hc | ⟨-, rfl⟩
        · exact ih c p i hc hp
        · cases hp
      · rcases getElem?_set_cases hc with ⟨rfl, rfl⟩ | ⟨-, hc⟩
        · -- the index that is read counts the calls so far
          obtain ⟨post, hpost⟩ := hpre
          obtain ⟨hi, hl⟩ := registryInv_of_exec hrun
          cases hp
          rw [hi.index_eq, hl]
          exact hu is c post (by rw [← hpost, List.append_assoc]; rfl)
        · exact ih c p i hc hp
      · exact ih c p i hc hp
      · rcases getElem?_set_cases hc with ⟨rfl, rfl⟩ | ⟨-, hc⟩
        · cases hp
          exact ih c _ i hd rfl
        · exact ih c p i hc hp
  exact hinv actions answers S h (List.prefix_refl actions)

theorem Undisturbed.of_prefix {pre actions : List StubAction} (hu : Undisturbed actions)
    (hpre : pre <+: actions) : Undisturbed pre := by
  obtain ⟨post, rfl⟩ := hpre
  intro first c rest he
  exact hu first c (rest ++ post) (by rw [he, List.append_assoc, List.cons_append])

/-- A call that is in progress has not released its slot, and nobody else has. -/
theorem RegistryInv.get_own {S : StubCalls} {c i : ℕ} (hi : RegistryInv S) (hown : HoldOwn S)
    (hc : S.calls[c]? = some (.holding i)) : S.registry.get i = some c := by
  obtain rfl : i = c+1 := hown c _ i hc rfl
  have hlt : c < S.calls.length := (List.getElem?_eq_some_iff.mp hc).1
  rcases hi.kept c hlt with hk | ⟨d, hd⟩
  · exact hk
  · obtain rfl : c = d := Nat.succ.inj (hown d _ _ hd rfl)
    rw [hc] at hd
    cases hd

theorem RegistryInv.internal_eq_empty {S : StubCalls} (hi : RegistryInv S) (hown : HoldOwn S)
    (hidle : ∀ p ∈ S.calls, ¬p.InProgress) : S.registry.internal = ∅ := by
  apply ExtTreeMap.ext_getElem?
  intro i
  rw [ExtTreeMap.getElem?_empty]
  by_contra hne
  obtain ⟨x, hx⟩ := Option.ne_none_iff_exists'.mp hne
  obtain ⟨rfl, hlt⟩ := hi.stubs i x hx
  have hcall : S.calls[x]? = some (S.calls[x]) := List.getElem?_eq_getElem hlt
  cases hp : S.calls[x] with
  | registered => exact hidle _ (List.mem_of_getElem? hcall) (by rw [hp]; trivial)
  | holding j => exact hidle _ (List.mem_of_getElem? hcall) (by rw [hp]; trivial)
  | returned j =>
    rw [hp] at hcall
    obtain rfl : j = x+1 := hown x _ j hcall rfl
    rw [hi.gone x _ hcall] at hx
    cases hx

theorem privateSlots_of_undisturbed {actions : List StubAction} (hu : Undisturbed actions) :
    PrivateSlots actions := by
  constructor
  · rintro S ⟨pre, post, answers, rfl, hrun⟩ c d i hc hd
    have hown := holdOwn_of_undisturbed hrun (hu.of_prefix (List.prefix_append pre post))
    have hci := hown c _ i hc rfl
    have hdi := hown d _ i hd rfl
    omega
  · intro S answers hrun
    have hinv : ∀ is os t, exec StubCalls.step noCalls is = some (t, os) → is <+: actions →
        ∀ c stubs, some (c, stubs) ∈ os → stubs = some c := by
      intro is os t hrun
      apply exec_invariant StubCalls.step (fun is os _ => is <+: actions →
        ∀ c stubs, some (c, stubs) ∈ os → stubs = some c) _ _ hrun
      · intro _ c stubs hmem
        cases hmem
      · intro is os t a t' o hrun ih hs hpre c stubs hmem
        have hpre' := (List.prefix_append is [a]).trans hpre
        rcases List.mem_append.mp hmem with hmem | hmem
        · exact ih hpre' c stubs hmem
        · have ho := List.mem_singleton.mp hmem
          rcases stubStep_cases hs with ⟨-, rfl, -⟩ | ⟨d, -, rfl, -, -⟩ | ⟨d, i, -, hd, rfl, -⟩ |
            ⟨d, i, -, rfl, -, -⟩
          · cases ho
          · cases ho
          · cases ho
            exact (registryInv_of_exec hrun).1.get_own (holdOwn_of_undisturbed hrun (hu.of_prefix hpre')) hd
          · cases ho
    exact hinv actions answers S hrun (List.prefix_refl actions)
  · rintro S ⟨pre, post, answers, rfl, hrun⟩ hidle
    have hown := holdOwn_of_undisturbed hrun (hu.of_prefix (List.prefix_append pre post))
    exact (registryInv_of_exec hrun).1.internal_eq_empty hown hidle

/-- An index that was read is the one that the call works with from then on. -/
theorem index_of_read {actions : List StubAction} {S S' : StubCalls} {answers : List (Option (ℕ × Option ℕ))}
    {c i : ℕ} (hc : S.calls[c]? = some (.holding i))
    (h : exec StubCalls.step S actions = some (S', answers)) :
    ∃ p, S'.calls[c]? = some p ∧ p.index? = some i := by
  apply exec_invariant StubCalls.step (fun _ _ t => ∃ p, t.calls[c]? = some p ∧ p.index? = some i) _ _ h
  · exact ⟨_, hc, rfl⟩
  · rintro is os t a t' o - ⟨p, hp, hindex⟩ hs
    have hlt : c < t.calls.length := (List.getElem?_eq_some_iff.mp hp).1
    rcases stubStep_cases hs with ⟨-, -, rfl⟩ | ⟨d, -, -, hd, rfl⟩ | ⟨d, j, -, -, -, rfl⟩ | ⟨d, j, -, -, hd, rfl⟩
    · exact ⟨p, by grind, hindex⟩
    · have hne : d ≠ c := by
        rintro rfl
        rw [hd] at hp
        cases hp
        cases hindex
      exact ⟨p, by grind, hindex⟩
    · exact ⟨p, hp, hindex⟩
    · by_cases he : d = c
      · subst he
        rw [hd] at hp
        cases hp
        exact ⟨.returned j, by grind, hindex⟩
      · exact ⟨p, by grind, hindex⟩

/-- Once all calls have returned, an empty registry shows that every call has held its own
index: the slot of the first one that has not would have been left behind. -/
theorem holdOwn_of_empty {S : StubCalls} (hi : RegistryInv S) (hempty : S.registry.internal = ∅) :
    HoldOwn S := by
  have hreleased (c : ℕ) (hc : c < S.calls.length) : ∃ d : ℕ, S.calls[d]? = some (.returned (c+1)) := by
    rcases hi.kept c hc with hk | hd
    · rw [hempty, ExtTreeMap.getElem?_empty] at hk
      cases hk
    · exact hd
  have hself (c : ℕ) (hc : c < S.calls.length) : S.calls[c]? = some (.returned (c+1)) := by
    induction c using Nat.strong_induction_on with
    | _ c ih =>
      obtain ⟨d, hd⟩ := hreleased c hc
      have hle := (hi.bounds d _ _ hd rfl).1
      rcases Nat.lt_or_eq_of_le (Nat.le_of_succ_le_succ hle) with hlt | rfl
      · rw [ih d hlt (hlt.trans hc)] at hd
        cases hd
        omega
      · exact hd
  intro c p i hp hindex
  have hlt : c < S.calls.length := (List.getElem?_eq_some_iff.mp hp).1
  rw [hself c hlt] at hp
  cases hp
  exact (Option.some.inj hindex).symm

theorem undisturbed_of_empty {actions : List StubAction} {S : StubCalls}
    {answers : List (Option (ℕ × Option ℕ))} (h : exec StubCalls.step noCalls actions = some (S, answers))
    (hempty : S.registry.internal = ∅) : Undisturbed actions := by
  have hown := holdOwn_of_empty (registryInv_of_exec h).1 hempty
  rintro pre c post rfl
  obtain ⟨t, os, u, os', hpre, hrest, he⟩ := (exec_append_eq_some StubCalls.step).mp h
  obtain ⟨t', o, u', os'', hstep, hpost, he'⟩ := (exec_cons_eq_some StubCalls.step).mp hrest
  cases he
  cases he'
  obtain ⟨hi, hl⟩ := registryInv_of_exec hpre
  have hread : t'.calls[c]? = some (.holding (registrations pre)) := by
    rcases stubStep_cases hstep with ⟨hno, -⟩ | ⟨d, ha, -, hd, rfl⟩ | ⟨d, j, hno, -⟩ | ⟨d, j, hno, -⟩
    · cases hno
    · cases ha
      have hlt : c < t.calls.length := (List.getElem?_eq_some_iff.mp hd).1
      rw [List.getElem?_set_self hlt, hi.index_eq, hl]
    · cases hno
    · cases hno
  obtain ⟨p, hp, hindex⟩ := index_of_read hread hpost
  exact hown c p _ hp hindex

/-- The slots are private when every call reads the index before the next one registers, and
for a run that leaves no call in progress only then. -/
theorem slots_private_iff (actions : List StubAction) (S : StubCalls)
    (answers : List (Option (ℕ × Option ℕ)))
    (h : exec StubCalls.step noCalls actions = some (S, answers)) :
    (Undisturbed actions → PrivateSlots actions) ∧
      ((∀ p ∈ S.calls, ¬p.InProgress) → PrivateSlots actions → Undisturbed actions) := by
  refine ⟨privateSlots_of_undisturbed, ?_⟩
  intro hidle hslots
  exact undisturbed_of_empty h (hslots.empty S (Visits.finish StubCalls.step h) hidle)

/-- The condition on the order of the steps, as a program; `n` calls have registered before. -/
def readsFollow : ℕ → List StubAction → Bool
  | _, [] => true
  | n, .register :: as => readsFollow (n+1) as
  | n, .readIndex c :: as => n == c+1 && readsFollow n as
  | n, .get _ :: as => readsFollow n as
  | n, .release _ :: as => readsFollow n as

theorem undisturbed_of_readsFollow {actions : List StubAction} (h : readsFollow 0 actions = true) :
    Undisturbed actions := by
  have hgeneral (pre : List StubAction) (n c : ℕ) (post : List StubAction)
      (h : readsFollow n (pre ++ .readIndex c :: post) = true) : n+registrations pre = c+1 := by
    induction pre generalizing n with
    | nil => exact beq_iff_eq.mp (Bool.and_eq_true_iff.mp h).1
    | cons a pre ih =>
      cases a with
      | register =>
        have hn := ih (n+1) h
        rw [registrations, List.countP_cons_of_pos (by rfl), ← registrations]
        omega
      | readIndex d => exact ih n (Bool.and_eq_true_iff.mp h).2
      | get d => exact ih n h
      | release d => exact ih n h
  rintro pre c post rfl
  have hcount := hgeneral pre 0 c post h
  omega

/-- Two calls that overlap, but not in their registrations. -/
def overlappingCalls : List StubAction :=
  [.register, .readIndex 0, .register, .readIndex 1, .get 0, .get 1, .release 0, .get 1, .release 1]

theorem overlapping_calls_private :
    ∃ S answers, exec StubCalls.step noCalls overlappingCalls = some (S, answers) ∧
      PrivateSlots overlappingCalls := by
  obtain ⟨⟨S, answers⟩, hrun⟩ : ∃ r, exec StubCalls.step noCalls overlappingCalls = some r := ⟨_, rfl⟩
  exact ⟨S, answers, hrun, (slots_private_iff overlappingCalls S answers hrun).1
    (undisturbed_of_readsFollow rfl)⟩

/-- Both calls register before the first of them reads the index. -/
def racingCalls : List StubAction :=
  [.register, .register, .readIndex 0, .readIndex 1, .get 0, .release 0, .get 1, .release 1]

/-- They hold the same index; one is given the stubs of the other, which then finds its slot
empty, and a slot is left behind. -/
theorem racing_calls_share_slot :
    (∃ S : StubCalls, Visits StubCalls.step noCalls racingCalls S ∧ S.calls = [.holding 2, .holding 2]) ∧
      ∃ S answers, exec StubCalls.step noCalls racingCalls = some (S, answers) ∧
        some (0, some 1) ∈ answers ∧ some (1, none) ∈ answers ∧
        S.calls = [.returned 2, .returned 2] ∧ S.registry.internal[1]? = some 0 := by
  refine ⟨⟨_, ⟨racingCalls.take 4, racingCalls.drop 4, _, rfl, rfl⟩, rfl⟩, _, _, rfl, ?_⟩
  decide

end SecureChaincode
