import Mathlib.Data.List.Forall2
import Mathlib.Tactic.Common

/-! Printing into a buffer of fixed size, or without one to find the size out. Lengths are of the type
`int`. -/
namespace SecureChaincode

/-- How printing ends without a result: it reports a failure, or is undefined, as it writes behind the
buffer or a length does not fit into its type. -/
inductive PrintExit
  | failure
  | fault
deriving DecidableEq

/-- From a pointer, or NULL, to the memory afterwards and the length that is reported. The
pointer is the memory and a position in it. -/
abbrev Writer (α : Type) := Option (List α × ℕ) → Except PrintExit (Option (List α) × ℕ)

namespace Writer
variable {α : Type}

def done : Writer α := fun buf => .ok (buf.map Prod.fst, 0)

def fail : Writer α := fun _ => .error .failure

def intMax : ℕ := 2147483647

/-- The second continues where the reported length says that the first has ended, and its own length
is added to that. -/
def andThen (w w' : Writer α) : Writer α := fun buf => do
  let (mem, written) ← w buf
  let (mem, written') ← w' (buf.bind (fun b => mem.map (fun m => (m, b.2+written))))
  if intMax < written+written' then .error .fault else return (mem, written+written')

/-- Some in this order, and the last one behind them. -/
def inOrder (ws : List (Writer α)) (last : Writer α) : Writer α := (ws.foldl andThen done).andThen last

def onlyIf (b : Bool) (w : Writer α) : Writer α := if b then w else done

/-- Bytes at the pointer, and the length that is reported for them. -/
def poke (bytes : List α) (reported : ℕ) : Writer α
  | none => .ok (none, reported)
  | some (mem, pos) =>
    if pos+bytes.length ≤ mem.length then
      .ok (some (mem.take pos ++ bytes ++ mem.drop (pos+bytes.length)), reported)
    else .error .fault

end Writer

section
variable {α : Type} {z : α}

/-- The writer prints the text wherever there is room for it and for one byte more. That byte
may change, and is `z` behind a closed text; the rest of the memory stays as it was. A text that is
too long for an `int` is not even counted. -/
structure Prints (z : α) (w : Writer α) (text : List α) (closed : Bool) : Prop where
  counted : text.length ≤ Writer.intMax → w none = .ok (none, text.length)
  overflow : Writer.intMax < text.length → w none = .error .fault
  written : text.length ≤ Writer.intMax → ∀ (mem : List α) (pos : ℕ), pos+text.length < mem.length →
    ∃ b, (closed = true → b = z) ∧
      w (some (mem, pos)) =
        .ok (some (mem.take pos ++ text ++ b :: mem.drop (pos+text.length+1)), text.length)

theorem Prints.weaken {w : Writer α} {text : List α} {closed : Bool} (h : Prints z w text closed) :
    Prints z w text false := by
  refine ⟨h.counted, h.overflow, ?_⟩
  intro hlen mem pos hroom
  obtain ⟨b, -, hw⟩ := h.written hlen mem pos hroom
  exact ⟨b, Bool.noConfusion, hw⟩

theorem prints_done : Prints z Writer.done [] false := by
  refine ⟨fun _ => rfl, fun hlong => absurd hlong (by simp), ?_⟩
  intro _ mem pos hroom
  have hpos : pos < mem.length := hroom
  refine ⟨mem[pos], Bool.noConfusion, ?_⟩
  have hmem : mem.take pos ++ mem[pos] :: mem.drop (pos+1) = mem := by
    rw [List.getElem_cons_drop, List.take_append_drop]
  show Except.ok (some mem, 0) = _
  rw [List.append_nil, List.length_nil, Nat.add_zero, hmem]

/-- A text with its terminator. -/
theorem prints_poke_closed {text : List α} (htext : text.length ≤ Writer.intMax) :
    Prints z (Writer.poke (text ++ [z]) text.length) text true := by
  refine ⟨fun _ => rfl, fun hlong => absurd htext (Nat.not_le_of_lt hlong), ?_⟩
  intro _ mem pos hroom
  have hlen : (text ++ [z]).length = text.length+1 := List.length_append
  refine ⟨z, fun _ => rfl, ?_⟩
  rw [Writer.poke, hlen, if_pos (by omega)]
  simp only [List.append_assoc, List.singleton_append, Nat.add_assoc]

/-- A single byte, with nothing behind it. -/
theorem prints_poke_one (c : α) : Prints z (Writer.poke [c] 1) [c] false := by
  refine ⟨fun _ => rfl, fun hlong => absurd hlong (by rw [List.length_singleton]; decide), ?_⟩
  intro _ mem pos hroom
  rw [List.length_singleton] at hroom
  refine ⟨mem[pos+1], Bool.noConfusion, ?_⟩
  rw [Writer.poke, List.length_singleton, if_pos (by omega), List.getElem_cons_drop]

/-- Behind the first text the second one overwrites the byte that was to spare. -/
theorem Prints.andThen {w w' : Writer α} {text text' : List α} {closed closed' : Bool}
    (h : Prints z w text closed) (h' : Prints z w' text' closed') :
    Prints z (w.andThen w') (text ++ text') closed' := by
  constructor
  · intro hfit
    rw [List.length_append] at hfit ⊢
    rw [Writer.andThen, h.counted (by omega)]
    simp only [bind, Except.bind, Option.bind_none, h'.counted (by omega), if_neg (Nat.not_lt.mpr hfit)]
    rfl
  · intro hlong
    rw [List.length_append] at hlong
    rw [Writer.andThen]
    -- one of the texts is too long, or only their sum is
    by_cases hfirst : text.length ≤ Writer.intMax
    · rw [h.counted hfirst]
      by_cases hsecond : text'.length ≤ Writer.intMax
      · simp only [bind, Except.bind, Option.bind_none, h'.counted hsecond, if_pos hlong]
      · simp only [bind, Except.bind, Option.bind_none, h'.overflow (Nat.lt_of_not_le hsecond)]
    · rw [h.overflow (Nat.lt_of_not_le hfirst)]
      rfl
  · intro hfit mem pos hroom
    rw [List.length_append] at hroom hfit
    obtain ⟨b, -, hw⟩ := h.written (by omega) mem pos (by omega)
    have hfront : (mem.take pos ++ text).length = pos+text.length := by
      rw [List.length_append, List.length_take]
      omega
    have hlen : (mem.take pos ++ text ++ b :: mem.drop (pos+text.length+1)).length = mem.length := by
      rw [List.length_append, hfront, List.length_cons, List.length_drop]
      omega
    obtain ⟨b', hb', hw'⟩ := h'.written (by omega) (mem.take pos ++ text ++ b :: mem.drop (pos+text.length+1))
      (pos+text.length) (by omega)
    refine ⟨b', hb', ?_⟩
    have htake : (mem.take pos ++ text ++ b :: mem.drop (pos+text.length+1)).take (pos+text.length) =
        mem.take pos ++ text := by
      rw [← hfront, List.take_left]
    have hdrop : (mem.take pos ++ text ++ b :: mem.drop (pos+text.length+1)).drop
          (pos+text.length+text'.length+1) =
        mem.drop (pos+(text ++ text').length+1) := by
      have hsplit : pos+text.length+text'.length+1 = (mem.take pos ++ text).length+(text'.length+1) := by
        omega
      rw [hsplit, List.drop_length_add_append, List.drop_succ_cons, List.drop_drop, List.length_append]
      congr 1
      omega
    rw [htake, hdrop] at hw'
    rw [Writer.andThen, hw]
    simp only [bind, Except.bind, Option.bind_some, Option.map_some, hw', if_neg (Nat.not_lt.mpr hfit)]
    rw [← List.append_assoc (mem.take pos) text text', List.length_append]
    rfl

theorem Prints.inOrder {ws : List (Writer α)} {texts : List (List α)} {last : Writer α}
    {text : List α} {closed : Bool} (hws : List.Forall₂ (fun w t => Prints z w t false) ws texts)
    (hlast : Prints z last text closed) :
    Prints z (Writer.inOrder ws last) (texts.flatten ++ text) closed := by
  -- what is written so far is the start of the text
  have hfront : ∀ {w : Writer α} {t : List α}, Prints z w t false →
      Prints z (ws.foldl Writer.andThen w) (t ++ texts.flatten) false := by
    clear hlast
    induction hws with
    | nil =>
      intro w t hw
      rw [List.flatten_nil, List.append_nil]
      exact hw
    | cons hw' _ ih =>
      intro w t hw
      rw [List.foldl_cons, List.flatten_cons, ← List.append_assoc]
      exact ih (hw.andThen hw')
  exact (hfront prints_done).andThen hlast

theorem Prints.onlyIf {w : Writer α} {text : List α} {closed : Bool} (h : Prints z w text closed)
    (b : Bool) : Prints z (Writer.onlyIf b w) (if b then text else []) false := by
  cases b with
  | true => exact h.weaken
  | false => exact prints_done

/-- A closed text from the start of the memory. -/
theorem Prints.from_start {w : Writer α} {text : List α} (h : Prints z w text true)
    (hfit : text.length ≤ Writer.intMax) {mem : List α} (hroom : text.length < mem.length) :
    w (some (mem, 0)) = .ok (some (text ++ z :: mem.drop (text.length+1)), text.length) := by
  obtain ⟨b, hb, hw⟩ := h.written hfit mem 0 (by omega)
  rw [hw, hb rfl, List.take_zero, List.nil_append, Nat.zero_add]

end

end SecureChaincode
