import SecureChaincode.Delimited
import SecureChaincode.KeyNames

/-! The forms of a key outside the ledger enclave, from `utils.go`: inside the chaincode
enclave a composite key is written with dots, in Fabric with NUL bytes. -/
namespace SecureChaincode

/-- `SEP`. -/
def sep : UInt8 := 0x2e

/-- A composite key in the enclave's form. -/
def sgxKey (comp : List Bytes) : Bytes := delimited sep comp

/-- A composite key in Fabric's form. -/
def fabricKey (comp : List Bytes) : Bytes := delimited 0 comp

def isSGXCompositeKey (compStr : Bytes) : Bool :=
  compStr.head? == some sep && compStr.getLast? == some sep

/-- `comp[1 : len(comp)-1]` of the parts; `none` is the panic on a key of another form. -/
def splitSGXCompositeKey (compStr : Bytes) : Option (List Bytes) :=
  if isSGXCompositeKey compStr then
    let comp := compStr.splitOn sep
    some ((comp.take (comp.length-1)).drop 1)
  else none

/-- Fabric takes for a part of a composite key what is UTF-8 and has neither U+0000 nor
U+10FFFF. Of this rule it matters only that a NUL is refused. -/
structure KeyRule where
  validAttribute : Bytes → Bool
  no_nul : ∀ a, validAttribute a = true → (0 : UInt8) ∉ a

/-- `CreateCompositeKey` of the chaincode shim; `none` is its error. -/
def createCompositeKey (F : KeyRule) (objectType : Bytes) (attributes : List Bytes) : Option Bytes :=
  if (objectType :: attributes).all F.validAttribute then
    some (fabricKey (objectType :: attributes))
  else none

/-- An error of Fabric is dropped and leaves the empty key. `none` is a panic: a key of
another form, or no part at index 0. -/
def transformToCompositeKey (F : KeyRule) (compKey : Bytes) : Option Bytes :=
  match splitSGXCompositeKey compKey with
  | some (objectType :: attributes) => some ((createCompositeKey F objectType attributes).getD [])
  | _ => none

def transformToSGX (comp : Bytes) : Bytes := comp.map (fun c => if c = 0 then sep else c)

example : splitSGXCompositeKey (str ".a.b.") = some [str "a", str "b"] := by decide
example : splitSGXCompositeKey (str ".") = some [] := by decide

theorem splitSGXCompositeKey_sgxKey {comp : List Bytes} (h : ∀ w ∈ comp, sep ∉ w) :
    splitSGXCompositeKey (sgxKey comp) = some comp := by
  have hlast : (sgxKey comp).getLast? = some sep := by
    rcases List.eq_nil_or_concat comp with rfl | ⟨ws, w, rfl⟩
    · rfl
    · have hsplit : sgxKey (ws.concat w) = sgxKey ws ++ w ++ [sep] := by
        simp [sgxKey, delimited, closed_append]
      rw [hsplit, List.getLast?_concat]
  have hkey : isSGXCompositeKey (sgxKey comp) = true := by
    rw [isSGXCompositeKey, hlast]
    rfl
  rw [splitSGXCompositeKey, if_pos hkey, sgxKey, splitOn_delimited h]
  simp

theorem sgxKey_injective_of_no_sep {comp comp' : List Bytes} (h : ∀ w ∈ comp, sep ∉ w) (h' : ∀ w ∈ comp', sep ∉ w)
    (heq : sgxKey comp = sgxKey comp') : comp = comp' := by
  have hsplit := splitSGXCompositeKey_sgxKey h
  rw [heq, splitSGXCompositeKey_sgxKey h'] at hsplit
  exact (Option.some.inj hsplit).symm

/-- The keys of the dotted form are those with a dot at both ends. -/
theorem isSGXCompositeKey_iff {k : Bytes} :
    isSGXCompositeKey k = true ↔ ∃ comp, (∀ w ∈ comp, sep ∉ w) ∧ k = sgxKey comp := by
  constructor
  · intro h
    rw [isSGXCompositeKey, Bool.and_eq_true, beq_iff_eq, beq_iff_eq] at h
    exact exists_delimited h.1 h.2
  · rintro ⟨comp, hcomp, rfl⟩
    by_contra hn
    have hsplit := splitSGXCompositeKey_sgxKey hcomp
    rw [splitSGXCompositeKey, if_neg hn] at hsplit
    cases hsplit

theorem transformToCompositeKey_sgxKey {F : KeyRule} {comp : List Bytes} (hne : comp ≠ [])
    (h : ∀ w ∈ comp, sep ∉ w) :
    transformToCompositeKey F (sgxKey comp) =
      some (if comp.all F.validAttribute then fabricKey comp else []) := by
  obtain ⟨w, ws, rfl⟩ := List.exists_cons_of_ne_nil hne
  rw [transformToCompositeKey, splitSGXCompositeKey_sgxKey h]
  simp only [createCompositeKey]
  split_ifs <;> rfl

theorem transformToSGX_of_no_nul {b : Bytes} (h : (0 : UInt8) ∉ b) : transformToSGX b = b := by
  rw [transformToSGX]
  have hid : ∀ c ∈ b, (if c = 0 then sep else c) = c := by
    intro c hc
    have hne : c ≠ 0 := fun he => h (he ▸ hc)
    rw [if_neg hne]
  rw [List.map_congr_left hid, List.map_id']

/-- Fabric's form goes back to the form of the enclave. -/
theorem transformToSGX_fabricKey {comp : List Bytes} (h : ∀ w ∈ comp, (0 : UInt8) ∉ w) :
    transformToSGX (fabricKey comp) = sgxKey comp := by
  rw [transformToSGX, fabricKey, map_delimited, if_pos rfl, sgxKey]
  congr 1
  have hid : ∀ w ∈ comp, w.map (fun c => if c = 0 then sep else c) = w :=
    fun w hw => transformToSGX_of_no_nul (h w hw)
  rw [List.map_congr_left hid, List.map_id']

/-- The walk to the end of a component. -/
theorem appendComponents_word {w rest : Bytes} (hw : (0 : UInt8) ∉ w) :
    appendComponents false (w ++ 0 :: rest) =
      (appendComponents true rest).map (fun r => w ++ sep :: r) := by
  induction w with
  | nil => rfl
  | cons c w ih =>
    have hc : c ≠ 0 := fun he => hw (he ▸ List.mem_cons_self)
    rw [List.cons_append, appendComponents, if_neg hc, ih (fun hm => hw (List.mem_cons_of_mem c hm)),
      Option.map_map]
    rfl

/-- The walk takes the components up to the first empty one. -/
theorem appendComponents_closed {comp : List Bytes} (h : ∀ w ∈ comp, (0 : UInt8) ∉ w) :
    appendComponents true (closed 0 comp ++ [0]) = some (closed sep (comp.takeWhile (· ≠ []))) := by
  induction comp with
  | nil => rfl
  | cons w comp ih =>
    cases w with
    | nil => rfl
    | cons c w =>
      -- the first byte starts the component, the rest is walked to the NUL
      have hw := h (c :: w) List.mem_cons_self
      have hc : c ≠ 0 := fun he => hw (he ▸ List.mem_cons_self)
      rw [closed_cons, List.append_assoc, List.cons_append, List.cons_append, appendComponents, if_neg hc,
        appendComponents_word (fun hm => hw (List.mem_cons_of_mem c hm)),
        ih (fun v hv => h v (List.mem_cons_of_mem (c :: w) hv))]
      simp

/-- The ledger's name for a composite key is the dotted form of the components up to the first
empty one, behind the namespace. -/
theorem compositeName_takeWhile (ns : Bytes) {comp : List Bytes} (h : ∀ w ∈ comp, (0 : UInt8) ∉ w) :
    compositeName ns (fabricKey comp) = some (ns ++ sgxKey (comp.takeWhile (· ≠ []))) := by
  have hdrop : (fabricKey comp ++ [0]).drop 1 = closed 0 comp ++ [0] := rfl
  rw [compositeName, hdrop, appendComponents_closed h, Option.map_some, List.append_assoc]
  rfl

theorem compositeName_fabricKey (ns : Bytes) {comp : List Bytes}
    (h : ∀ w ∈ comp, w ≠ [] ∧ (0 : UInt8) ∉ w) :
    compositeName ns (fabricKey comp) = some (ns ++ sgxKey comp) := by
  have hall : comp.takeWhile (· ≠ []) = comp := by
    rw [List.takeWhile_eq_self_iff]
    intro w hw
    exact decide_eq_true (h w hw).1
  rw [compositeName_takeWhile ns (fun w hw => (h w hw).2), hall]

/-- The name of a composite key does not depend on whether it is written or read in a range. -/
theorem eccName_eq_compositeName (ns : Bytes) (comp : List Bytes) :
    eccName ns (fabricKey comp) = compositeName ns (fabricKey comp) := by
  have hhead : (fabricKey comp ++ [0]).head? = some 0 := rfl
  rw [eccName, if_pos hhead]

theorem eccName_fabricKey (ns : Bytes) {comp : List Bytes}
    (h : ∀ w ∈ comp, w ≠ [] ∧ (0 : UInt8) ∉ w) :
    eccName ns (fabricKey comp) = some (ns ++ sgxKey comp) := by
  rw [eccName_eq_compositeName, compositeName_fabricKey ns h]

theorem eccName_simple (ns : Bytes) {k : Bytes} (hk : (0 : UInt8) ∉ k) (hne : k ≠ []) :
    eccName ns k = some (ns ++ str "." ++ k) := by
  obtain ⟨c, k', rfl⟩ := List.exists_cons_of_ne_nil hne
  have hc : c ≠ 0 := fun he => hk (he ▸ List.mem_cons_self)
  have hhead : ((c :: k') ++ [0]).head? ≠ some 0 := fun he => hc (Option.some.inj he)
  rw [eccName, if_neg hhead, simpleName, cstr_eq_self hk]

end SecureChaincode
