import Mathlib

/-! Byte strings, C strings and the names under which the ledger enclave files keys. -/
namespace SecureChaincode

abbrev Bytes := List UInt8

/-- The bytes of a string literal of the source. -/
def str (s : String) : Bytes := s.toList.map (fun c => c.toNat.toUInt8)

/-- What a `char*` into a NUL-terminated buffer denotes: the bytes before the first NUL. -/
def cstr (b : Bytes) : Bytes := b.takeWhile (· != 0)

/-- The loop `while (*idx) { append(idx); append("."); idx += strlen(idx) + 1; }`, on
the part of the buffer from `idx` on. The flag says that `idx` is at the start of a
component, where a NUL ends the loop; a NUL after a component has become the dot. -/
def appendComponents : Bool → Bytes → Option Bytes
  -- the pointer has run past the terminator
  | _, [] => none
  | true, c :: rest =>
    if c = 0 then some [] else (appendComponents false rest).map (c :: ·)
  | false, c :: rest =>
    if c = 0 then (appendComponents true rest).map (str "." ++ ·)
    else (appendComponents false rest).map (c :: ·)

/-- The ledger's name for a key that is walked as a composite key of namespace `ns`. The
buffer is the key with its terminator, and the walk starts after the first byte. -/
def compositeName (ns key : Bytes) : Option Bytes :=
  (appendComponents true ((key ++ [0]).drop 1)).map (ns ++ str "." ++ ·)

/-- The ledger's name for a key that is read as one C string. -/
def simpleName (ns key : Bytes) : Bytes := ns ++ str "." ++ cstr key

/-- The name under which an `ecc` write is filed: composite keys start with `0x00`. -/
def eccName (ns key : Bytes) : Option Bytes :=
  if (key ++ [0]).head? = some 0 then compositeName ns key else some (simpleName ns key)

example : eccName (str "ecc") ([0] ++ str "a" ++ [0] ++ str "b" ++ [0]) = some (str "ecc.a.b.") := by
  decide

theorem cstr_eq_self {b : Bytes} (h : (0 : UInt8) ∉ b) : cstr b = b := by
  rw [cstr, List.takeWhile_eq_self_iff]
  intro c hc
  have hne : c ≠ 0 := fun he => h (he ▸ hc)
  simpa using hne

end SecureChaincode
