import SecureChaincode.JsonTokens
import SecureChaincode.PeerStub

/-! The names in the answer to a range query, which the Go stub puts between quotes as they are. One
that has a quote, a backslash or a control character in it is not received by the enclave, unless the
answer has a longer one of the kind; and so not all of them are. -/
namespace SecureChaincode

open Std

/-- The memory behind an answer has no backslash. -/
theorem backslash_not_mem_zeros (n : ℕ) : 0x5c ∉ List.replicate n (0 : UInt8) :=
  fun hmem => absurd (List.eq_of_mem_replicate hmem) (by decide)

/-- An escape in the text of an item is one in its key. -/
theorem escape_in_item {g r : Bytes} {p : Bytes × Bytes} {rest : Bytes} (hr : Unquoted r) (hescape : 0x5c ∈ r)
    (hg : 0x5c ∉ g) (hkey : p.1.getLast? ≠ some 0x5c) (hvalue : PlainText p.2)
    (hin : r <:+: g ++ itemText p ++ rest) : r <:+: p.1 ∨ r <:+: str "\x7d" ++ rest := by
  have hno : 0x5c ∉ p.2 := fun hmem => (hvalue _ hmem).2.2 rfl
  have hlast {q : Bytes} (hq : 0x5c ∉ q) : q.getLast? ≠ some 0x5c := fun he => hq (List.mem_of_getLast? he)
  have hfirst : 0x5c ∉ g ++ str "\x7b" := by
    rw [List.mem_append]
    rintro (hmem | hmem)
    · exact hg hmem
    · exact absurd hmem (by decide)
  have htext : g ++ itemText p ++ rest =
      [g ++ str "\x7b", str "key", str ":", p.1, str ",", str "value", str ":", p.2].flatMap (fun q => q ++ [0x22]) ++
        (str "\x7d" ++ rest) := by
    simp [itemText, str]
  have hparts : ∀ q ∈ [g ++ str "\x7b", str "key", str ":", p.1, str ",", str "value", str ":", p.2],
      q = p.1 ∨ 0x5c ∉ q := by
    simp only [List.forall_mem_cons]
    exact ⟨Or.inr hfirst, Or.inr (by decide), Or.inr (by decide), Or.inl trivial, Or.inr (by decide),
      Or.inr (by decide), Or.inr (by decide), Or.inr hno, fun q hq => absurd hq List.not_mem_nil⟩
  rw [htext] at hin
  have hends : ∀ q ∈ [g ++ str "\x7b", str "key", str ":", p.1, str ",", str "value", str ":", p.2],
      q.getLast? ≠ some 0x5c := by
    intro q hq
    rcases hparts q hq with rfl | hnot
    · exact hkey
    · exact hlast hnot
  rcases hr.infix_of_parts hends hin with ⟨q, hq, hin⟩ | hin
  · left
    rcases hparts q hq with rfl | hnot
    · exact hin
    · exact absurd (hin.mem hescape) hnot
  · exact Or.inr hin

section
variable {items : List (Bytes × Bytes)} (hkeys : ∀ p ∈ items, p.1.getLast? ≠ some 0x5c)
  (hvalues : ∀ p ∈ items, PlainText p.2)
include hkeys hvalues

theorem escape_in_items {g r rest : Bytes} (hr : Unquoted r) (hescape : 0x5c ∈ r) (hg : 0x5c ∉ g)
    (hrest : 0x5c ∉ rest) (hin : r <:+: g ++ (items.flatMap (fun p => 0x2c :: itemText p) ++ rest)) :
    ∃ p ∈ items, r <:+: p.1 := by
  induction items generalizing g with
  | nil =>
    rcases List.mem_append.mp (hin.mem hescape) with hmem | hmem
    · exact absurd hmem hg
    · exact absurd hmem hrest
  | cons p items ih =>
    obtain ⟨hkey, hkeys⟩ := List.forall_mem_cons.mp hkeys
    obtain ⟨hvalue, hvalues⟩ := List.forall_mem_cons.mp hvalues
    have hcomma : 0x5c ∉ g ++ [0x2c] := by
      rw [List.mem_append]
      rintro (hmem | hmem)
      · exact hg hmem
      · exact absurd hmem (by decide)
    have htext : g ++ ((p :: items).flatMap (fun p => 0x2c :: itemText p) ++ rest) =
        (g ++ [0x2c]) ++ itemText p ++ (items.flatMap (fun p => 0x2c :: itemText p) ++ rest) := by
      simp
    rw [htext] at hin
    rcases escape_in_item hr hescape hcomma hkey hvalue hin with hin | hin
    · exact ⟨p, List.mem_cons_self, hin⟩
    · obtain ⟨p', hp', hin⟩ := ih hkeys hvalues (by decide) hin
      exact ⟨p', List.mem_cons_of_mem p hp', hin⟩

theorem escape_in_valuesText {r rest : Bytes} (hr : Unquoted r) (hescape : 0x5c ∈ r) (hrest : 0x5c ∉ rest)
    (hin : r <:+: valuesText items ++ rest) : ∃ p ∈ items, r <:+: p.1 := by
  have hbracket : 0x5c ∉ str "]" ++ rest := by
    rw [List.mem_append]
    rintro (hmem | hmem)
    · exact absurd hmem (by decide)
    · exact hrest hmem
  cases items with
  | nil =>
    have hmem := hin.mem hescape
    rw [valuesText, List.mem_append] at hmem
    rcases hmem with hmem | hmem
    · exact absurd hmem (by decide)
    · exact absurd hmem hrest
  | cons p items =>
    obtain ⟨hkey, hkeys⟩ := List.forall_mem_cons.mp hkeys
    obtain ⟨hvalue, hvalues⟩ := List.forall_mem_cons.mp hvalues
    have htext : valuesText (p :: items) ++ rest =
        str "[" ++ itemText p ++ (items.flatMap (fun p => 0x2c :: itemText p) ++ (str "]" ++ rest)) := by
      simp [valuesText, commaSeparated, List.flatMap_map]
    rw [htext] at hin
    rcases escape_in_item hr hescape (by decide) hkey hvalue hin with hin | hin
    · exact ⟨p, List.mem_cons_self, hin⟩
    · obtain ⟨p', hp', hin⟩ := escape_in_items hkeys hvalues hr hescape (by decide) hbracket hin
      exact ⟨p', List.mem_cons_of_mem p hp', hin⟩

/-- A string that cannot stand between quotes as it is comes from a longer name of the kind. -/
theorem longer_of_standsIn {t rest : Bytes} (hrest : 0x5c ∉ rest) (ht : StandsIn t (valuesText items ++ rest))
    (hspecial : ¬PlainText t) : ∃ p ∈ items, ¬PlainText p.1 ∧ t.length < p.1.length := by
  obtain ⟨r, hin, hr, hlonger⟩ := ht
  obtain ⟨hescape, hlt⟩ := hlonger hspecial
  obtain ⟨p, hp, hin⟩ := escape_in_valuesText hkeys hvalues hr hescape hrest hin
  refine ⟨p, hp, fun hplain => (hplain _ (hin.mem hescape)).2.2 rfl, hlt.trans_le hin.length_le⟩

end

theorem hasString_of_jsonObjectGetString {name t : Bytes} {v : Json}
    (h : jsonObjectGetString name (some v) = some t) : v.HasString t := by
  cases v with
  | object members =>
    rw [jsonObjectGetString, jsonObjectGetValue] at h
    cases hlookup : members.lookup name with
    | none =>
      rw [hlookup] at h
      cases h
    | some value =>
      rw [hlookup] at h
      cases value with
      | string s =>
        cases h
        exact .member (mem_of_lookup_eq_some hlookup) (.string t)
      | _ => cases h
  | _ => cases h

/-- The key and the value of a pair. -/
def keyAndValue (pair : Json) : Option (Bytes × Bytes) := do
  let key ← jsonObjectGetString (str "key") (some pair)
  let value ← jsonObjectGetString (str "value") (some pair)
  return (key, value)

theorem hasString_of_keyAndValue {pair : Json} {p : Bytes × Bytes} (h : keyAndValue pair = some p) :
    pair.HasString p.1 := by
  obtain ⟨key, hkey, h⟩ := Option.bind_eq_some_iff.mp h
  obtain ⟨value, -, h⟩ := Option.bind_eq_some_iff.mp h
  cases h
  exact hasString_of_jsonObjectGetString hkey

theorem foldlM_pairs (pairs : List Json) (values : WriteSet) :
    pairs.foldlM (fun values pair => do
      let key ← jsonObjectGetString (str "key") (some pair)
      let value ← jsonObjectGetString (str "value") (some pair)
      return values.insertIfNew key value) values = (pairs.mapM keyAndValue).map (insertAll values) := by
  induction pairs generalizing values with
  | nil => rfl
  | cons pair pairs ih =>
    rw [List.foldlM_cons, List.mapM_cons, keyAndValue]
    cases jsonObjectGetString (str "key") (some pair) with
    | none => rfl
    | some key =>
      cases jsonObjectGetString (str "value") (some pair) with
      | none => rfl
      | some value =>
        refine (ih (values.insertIfNew key value)).trans ?_
        cases pairs.mapM keyAndValue with
        | none => rfl
        | some items => rfl

theorem exists_of_mem_pairs {pairs : List Json} {items : List (Bytes × Bytes)}
    (h : pairs.mapM keyAndValue = some items) {p : Bytes × Bytes} (hp : p ∈ items) :
    ∃ pair ∈ pairs, keyAndValue pair = some p := by
  induction pairs generalizing items with
  | nil =>
    cases h
    exact absurd hp List.not_mem_nil
  | cons pair pairs ih =>
    rw [List.mapM_cons] at h
    obtain ⟨q, hq, h⟩ := Option.bind_eq_some_iff.mp h
    obtain ⟨items', hitems, h⟩ := Option.bind_eq_some_iff.mp h
    cases h
    rcases List.mem_cons.mp hp with rfl | hp
    · exact ⟨pair, List.mem_cons_self, hq⟩
    · obtain ⟨pair', hpair, hfound⟩ := ih hitems hp
      exact ⟨pair', List.mem_cons_of_mem pair hpair, hfound⟩

/-- A text has pairs in it, or the parser reads behind it, whatever the map already holds. The keys
are strings of the text. -/
theorem unmarshalValues_eq (libc : Libc) (json : Bytes) :
    ∃ found : Option (List (Bytes × Bytes)),
      (∀ values, unmarshalValues libc values json = found.map (insertAll values)) ∧
        ∀ items, found = some items → ∀ p ∈ items, StandsIn p.1 json := by
  have hnone : ∀ items : List (Bytes × Bytes), some [] = some items → ∀ p ∈ items, StandsIn p.1 json := by
    intro items h p hp
    cases h
    exact absurd hp List.not_mem_nil
  cases hparse : jsonParseString libc json with
  | error e =>
    cases e with
    | null =>
      refine ⟨some [], fun values => ?_, hnone⟩
      rw [unmarshalValues, hparse]
      rfl
    | fault =>
      refine ⟨none, fun values => ?_, fun items h => absurd h (by simp)⟩
      rw [unmarshalValues, hparse]
      rfl
  | ok root =>
    cases root with
    | array pairs =>
      refine ⟨pairs.mapM keyAndValue, fun values => ?_, ?_⟩
      · rw [unmarshalValues, hparse]
        exact foldlM_pairs pairs values
      · intro items hitems p hp
        obtain ⟨pair, hpair, hfound⟩ := exists_of_mem_pairs hitems hp
        exact jsonParseString_standsIn hparse (.item hpair (hasString_of_keyAndValue hfound))
    | _ =>
      refine ⟨some [], fun values => ?_, hnone⟩
      rw [unmarshalValues, hparse]
      rfl

/-- A name that the enclave receives and that has a special character in it is shorter than one
that was sent. -/
theorem longer_of_received {libc : Libc} {items : List (Bytes × Bytes)}
    (hkeys : ∀ p ∈ items, p.1.getLast? ≠ some 0x5c) (hvalues : ∀ p ∈ items, PlainText p.2) {rest : Bytes}
    (hrest : 0x5c ∉ rest) {received : WriteSet}
    (h : unmarshalValues libc ∅ (valuesText items ++ rest) = some received) {k : Bytes} (hk : k ∈ received)
    (hspecial : ¬PlainText k) : ∃ p ∈ items, ¬PlainText p.1 ∧ k.length < p.1.length := by
  obtain ⟨found, hfound, hstands⟩ := unmarshalValues_eq libc (valuesText items ++ rest)
  rw [hfound] at h
  obtain ⟨pairs, rfl, rfl⟩ := Option.map_eq_some_iff.mp h
  rw [← ExtTreeMap.mem_keys] at hk
  obtain ⟨p, hp, rfl⟩ := List.mem_map.mp (mem_keys_insertAll_empty.mp hk)
  exact longer_of_standsIn hkeys hvalues hrest (hstands pairs rfl p hp) hspecial

theorem exists_longest {α : Type} {P : α → Prop} (f : α → ℕ) {l : List α} (h : ∃ a ∈ l, P a) :
    ∃ a ∈ l, P a ∧ ∀ b ∈ l, P b → f b ≤ f a := by
  have hfinite : {a | a ∈ l ∧ P a}.Finite := l.finite_toSet.subset (fun a ha => ha.1)
  obtain ⟨a, ha, hmax⟩ := Set.exists_max_image {a | a ∈ l ∧ P a} f hfinite h
  exact ⟨a, ha.1, ha.2, fun b hb hP => hmax b ⟨hb, hP⟩⟩

end SecureChaincode
