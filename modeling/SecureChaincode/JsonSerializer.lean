import SecureChaincode.ParsonStrings
import SecureChaincode.PrintBuffer

/-! The serializer of `common/json/parson.c`, which runs once without a buffer to find the
size out and then again with one. `append_string` is that of `common/utils.c`, which the
enclave is built with. -/
namespace SecureChaincode

/-- `strncpy` of a C string with its NUL. -/
def appendString (string : Bytes) : Writer UInt8 := .poke (string ++ [0]) string.length

def appendIndent (level : ℕ) : Writer UInt8 :=
  .inOrder (List.replicate level (appendString (str "    "))) .done

/-- A byte of a string. One that has no escape is stored without a NUL behind it. -/
def appendEscaped (c : UInt8) : Writer UInt8 :=
  if escape c = [c] then .poke [c] 1 else appendString (escape c)

def jsonSerializeStringToBuffer (string : Bytes) : Writer UInt8 :=
  .inOrder (appendString (str "\"") :: string.map appendEscaped) (appendString (str "\""))

def numBufSize : ℕ := 64

/-- `snprintf` cuts the text off at the size of `num_buf` and returns its whole length. -/
def printNumber (libc : Libc) (num : Double) : Writer UInt8 :=
  .poke ((libc.printDouble num).take (numBufSize-1) ++ [0]) (libc.printDouble num).length

/-- The loop over the items of an array or the members of an object, each of them in some pieces. -/
def serializeRounds (isPretty : Bool) (level : ℕ) : List (List (Writer UInt8)) → List (Writer UInt8)
  | [] => []
  | pieces :: rest =>
    .onlyIf isPretty (appendIndent (level+1)) :: pieces ++
      -- `i < count-1`
      [.onlyIf (!rest.isEmpty) (appendString (str ",")), .onlyIf isPretty (appendString (str "\n"))] ++
        serializeRounds isPretty level rest

/-- The two cases of `json_serialize_to_buffer_r` that have such a loop. -/
def serializeBlock (opening closing : Bytes) (isPretty : Bool) (level : ℕ) (items : List (List (Writer UInt8))) :
    Writer UInt8 :=
  .inOrder
    ([appendString opening, .onlyIf (!items.isEmpty && isPretty) (appendString (str "\n"))] ++
      serializeRounds isPretty level items ++ [.onlyIf (!items.isEmpty && isPretty) (appendIndent level)])
    (appendString closing)

/-- A member, whose value is looked up by its name: `JSONError` where there is none. -/
def serializeMember (isPretty : Bool) (values : List (Bytes × Writer UInt8)) (key : Bytes) :
    List (Writer UInt8) :=
  [jsonSerializeStringToBuffer key, appendString (str ":"), .onlyIf isPretty (appendString (str " ")),
    (values.lookup key).getD .fail]

mutual

def jsonSerializeToBufferR (libc : Libc) (isPretty : Bool) (level : ℕ) : Json → Writer UInt8
  | .array items =>
    serializeBlock (str "[") (str "]") isPretty level
      ((itemWriters libc isPretty (level+1) items).map (fun item => [item]))
  | .object members =>
    let values := memberWriters libc isPretty (level+1) members
    serializeBlock (str "\x7b") (str "\x7d") isPretty level
      (values.map (fun m => serializeMember isPretty values m.1))
  | .string s => jsonSerializeStringToBuffer s
  | .boolean b => if b then appendString (str "true") else appendString (str "false")
  | .number n => printNumber libc n
  | .null => appendString (str "null")

def itemWriters (libc : Libc) (isPretty : Bool) (level : ℕ) : List Json → List (Writer UInt8)
  | [] => []
  | item :: items => jsonSerializeToBufferR libc isPretty level item :: itemWriters libc isPretty level items

def memberWriters (libc : Libc) (isPretty : Bool) (level : ℕ) :
    List (Bytes × Json) → List (Bytes × Writer UInt8)
  | [] => []
  | (key, value) :: members =>
    (key, jsonSerializeToBufferR libc isPretty level value) :: memberWriters libc isPretty level members

end

/-- The size with the NUL, and 0 for a value that cannot be printed. -/
def jsonSerializationSize (libc : Libc) (isPretty : Bool) (value : Json) : Except PrintExit ℕ :=
  match jsonSerializeToBufferR libc isPretty 0 value none with
  | .ok (_, res) => if res < Writer.intMax then .ok (res+1) else .error .fault
  | .error .failure => .ok 0
  | .error .fault => .error .fault

/-- The memory behind `buf` afterwards; a failure is `JSONFailure`. -/
def jsonSerializeToBuffer (libc : Libc) (isPretty : Bool) (value : Json) (buf : Bytes)
    (bufSizeInBytes : ℕ) : Except PrintExit Bytes := do
  let neededSizeInBytes ← jsonSerializationSize libc isPretty value
  if neededSizeInBytes = 0 ∨ bufSizeInBytes < neededSizeInBytes then .error .failure
  else
    let (mem, _) ← jsonSerializeToBufferR libc isPretty 0 value (some (buf, 0))
    return mem.getD []

/-- `malloc` gives memory of the size it is asked for, or NULL; NULL is returned for a failure. -/
def jsonSerializeToString (libc : Libc) (isPretty : Bool) (value : Json) (malloc : ℕ → Option Bytes) :
    Except PrintExit Bytes := do
  let bufSizeBytes ← jsonSerializationSize libc isPretty value
  if bufSizeBytes = 0 then .error .failure
  else
    match malloc bufSizeBytes with
    | none => .error .failure
    | some buf => jsonSerializeToBuffer libc isPretty value buf bufSizeBytes

/-! The text of a value, however it comes into memory. -/

/-- What stands in front of an item, or of a closing bracket, of a pretty text. -/
def lineBreak (isPretty : Bool) (level : ℕ) : Bytes :=
  if isPretty then 0x0a :: List.replicate (4*level) 0x20 else []

def bracketed (opening closing : UInt8) (isPretty : Bool) (level : ℕ) : List Bytes → Bytes
  | [] => [opening, closing]
  | t :: ts =>
    opening :: (lineBreak isPretty (level+1) ++ t ++
      ts.flatMap (fun t => 0x2c :: (lineBreak isPretty (level+1) ++ t)) ++ lineBreak isPretty level ++ [closing])

def memberText (isPretty : Bool) (name value : Bytes) : Bytes :=
  jsonSerializeString name ++ 0x3a :: ((if isPretty then [0x20] else []) ++ value)

mutual

def jsonText (libc : Libc) (isPretty : Bool) (level : ℕ) : Json → Bytes
  | .array items => bracketed 0x5b 0x5d isPretty level (itemTexts libc isPretty (level+1) items)
  | .object members => bracketed 0x7b 0x7d isPretty level (memberTexts libc isPretty (level+1) members)
  | .string s => jsonSerializeString s
  | .boolean b => if b then str "true" else str "false"
  | .number n => libc.printDouble n
  | .null => str "null"

def itemTexts (libc : Libc) (isPretty : Bool) (level : ℕ) : List Json → List Bytes
  | [] => []
  | item :: items => jsonText libc isPretty level item :: itemTexts libc isPretty level items

def memberTexts (libc : Libc) (isPretty : Bool) (level : ℕ) : List (Bytes × Json) → List Bytes
  | [] => []
  | (name, value) :: members =>
    memberText isPretty name (jsonText libc isPretty level value) :: memberTexts libc isPretty level members

end

section
variable (libc : Libc) (isPretty : Bool) (level : ℕ)

theorem itemWriters_eq_map (items : List Json) :
    itemWriters libc isPretty level items = items.map (jsonSerializeToBufferR libc isPretty level) := by
  induction items with
  | nil => rfl
  | cons item items ih => rw [itemWriters, ih, List.map_cons]

theorem memberWriters_eq_map (members : List (Bytes × Json)) :
    memberWriters libc isPretty level members =
      members.map (fun m => (m.1, jsonSerializeToBufferR libc isPretty level m.2)) := by
  induction members with
  | nil => rfl
  | cons m members ih => rw [memberWriters, ih, List.map_cons]

theorem itemTexts_eq_map (items : List Json) :
    itemTexts libc isPretty level items = items.map (jsonText libc isPretty level) := by
  induction items with
  | nil => rfl
  | cons item items ih => rw [itemTexts, ih, List.map_cons]

theorem memberTexts_eq_map (members : List (Bytes × Json)) :
    memberTexts libc isPretty level members =
      members.map (fun m => memberText isPretty m.1 (jsonText libc isPretty level m.2)) := by
  induction members with
  | nil => rfl
  | cons m members ih => rw [memberTexts, ih, List.map_cons]

end

/-- Values as parson builds them: the names of an object are different, and names and strings
are C strings. -/
inductive Json.WellFormed : Json → Prop
  | null : WellFormed .null
  | boolean (b : Bool) : WellFormed (.boolean b)
  | number (n : Double) : WellFormed (.number n)
  | string {s : Bytes} (hs : (0 : UInt8) ∉ s) : WellFormed (.string s)
  | array {items : List Json} (h : ∀ v ∈ items, WellFormed v) : WellFormed (.array items)
  | object {members : List (Bytes × Json)} (hnames : (members.map Prod.fst).Nodup)
      (hplain : ∀ m ∈ members, (0 : UInt8) ∉ m.1) (h : ∀ m ∈ members, WellFormed m.2) :
      WellFormed (.object members)

theorem prints_appendString {s : Bytes} (hs : s.length ≤ 6) : Prints 0 (appendString s) s true :=
  prints_poke_closed (hs.trans (by decide))

theorem prints_appendIndent (level : ℕ) :
    Prints 0 (appendIndent level) (List.replicate (4*level) 0x20) false := by
  have hall : List.Forall₂ (fun w t => Prints (0 : UInt8) w t false)
      (List.replicate level (appendString (str "    "))) (List.replicate level (str "    ")) := by
    induction level with
    | zero => exact .nil
    | succ level ih => exact .cons (prints_appendString (by decide)).weaken ih
  have htext : (List.replicate level (str "    ")).flatten ++ [] = List.replicate (4*level) (0x20 : UInt8) := by
    have hblank : str "    " = List.replicate 4 0x20 := by decide
    rw [List.append_nil, hblank, List.flatten_replicate_replicate, Nat.mul_comm]
  rw [← htext]
  exact Prints.inOrder hall prints_done

theorem length_escape_le : ∀ c : UInt8, (escape c).length ≤ 6 := by decide +kernel

theorem prints_appendEscaped (c : UInt8) : Prints 0 (appendEscaped c) (escape c) false := by
  unfold appendEscaped
  split
  case isTrue hc =>
    rw [hc]
    exact prints_poke_one c
  case isFalse => exact (prints_appendString (length_escape_le c)).weaken

theorem prints_jsonSerializeString (s : Bytes) :
    Prints 0 (jsonSerializeStringToBuffer s) (jsonSerializeString s) true := by
  have hall : List.Forall₂ (fun w t => Prints (0 : UInt8) w t false)
      (appendString (str "\"") :: s.map appendEscaped) (str "\"" :: s.map escape) := by
    refine .cons (prints_appendString (by decide)).weaken ?_
    rw [List.forall₂_map_left_iff, List.forall₂_map_right_iff]
    exact List.forall₂_same.mpr (fun c _ => prints_appendEscaped c)
  have htext : jsonSerializeString s = (str "\"" :: s.map escape).flatten ++ str "\"" := by
    rw [jsonSerializeString, List.flatten_cons, List.flatMap_def]
  rw [htext]
  exact Prints.inOrder hall (prints_appendString (by decide))

/-- The numbers of this library fit into `num_buf` with their NUL. -/
def Libc.FitsNumBuf (libc : Libc) : Prop := ∀ n, (libc.printDouble n).length < numBufSize

theorem prints_printNumber {libc : Libc} (hlibc : libc.FitsNumBuf) (n : Double) :
    Prints 0 (printNumber libc n) (libc.printDouble n) true := by
  have hwhole : (libc.printDouble n).take (numBufSize-1) = libc.printDouble n :=
    List.take_of_length_le (Nat.le_sub_one_of_lt (hlibc n))
  rw [printNumber, hwhole]
  exact prints_poke_closed ((hlibc n).le.trans (by decide))

/-- The text of the loop. -/
def roundsText (isPretty : Bool) (level : ℕ) : List Bytes → Bytes
  | [] => []
  | t :: ts =>
    [if isPretty then List.replicate (4*(level+1)) 0x20 else [], t,
        if !ts.isEmpty then str "," else [], if isPretty then str "\n" else []].flatten ++
      roundsText isPretty level ts

/-- The same in its pieces. -/
def roundsTexts (isPretty : Bool) (level : ℕ) : List (List Bytes) → List Bytes
  | [] => []
  | pieces :: rest =>
    (if isPretty then List.replicate (4*(level+1)) 0x20 else []) :: pieces ++
      [if !rest.isEmpty then str "," else [], if isPretty then str "\n" else []] ++ roundsTexts isPretty level rest

theorem flatten_roundsTexts (isPretty : Bool) (level : ℕ) (items : List (List Bytes)) :
    (roundsTexts isPretty level items).flatten = roundsText isPretty level (items.map List.flatten) := by
  induction items with
  | nil => rfl
  | cons pieces rest ih => simp [roundsTexts, roundsText, ih]

/-- The writers of the items print their texts. -/
abbrev PrintsAll (items : List (List (Writer UInt8))) (texts : List (List Bytes)) : Prop :=
  List.Forall₂ (List.Forall₂ (fun w t => Prints 0 w t false)) items texts

theorem prints_serializeRounds (isPretty : Bool) (level : ℕ) {items : List (List (Writer UInt8))}
    {texts : List (List Bytes)} (h : PrintsAll items texts) :
    List.Forall₂ (fun w t => Prints 0 w t false) (serializeRounds isPretty level items)
      (roundsTexts isPretty level texts) := by
  induction h with
  | nil => exact .nil
  | @cons pieces ts items texts hpieces hrest ih =>
    have hempty : items.isEmpty = texts.isEmpty := by
      rw [Bool.eq_iff_iff, List.isEmpty_iff_length_eq_zero, List.isEmpty_iff_length_eq_zero,
        hrest.length_eq]
    have hbehind : List.Forall₂ (fun w t => Prints (0 : UInt8) w t false)
        [.onlyIf (!items.isEmpty) (appendString (str ",")), .onlyIf isPretty (appendString (str "\n"))]
        [if !texts.isEmpty then str "," else [], if isPretty then str "\n" else []] := by
      rw [hempty]
      exact .cons ((prints_appendString (by decide)).onlyIf _)
        (.cons ((prints_appendString (by decide)).onlyIf isPretty) .nil)
    have hround : List.Forall₂ (fun w t => Prints (0 : UInt8) w t false)
        (.onlyIf isPretty (appendIndent (level+1)) :: pieces)
        ((if isPretty then List.replicate (4*(level+1)) 0x20 else []) :: ts) :=
      .cons ((prints_appendIndent _).onlyIf isPretty) hpieces
    exact List.rel_append (List.rel_append hround hbehind) ih

/-- The line feed behind an item and the indent in front of the next are one break. -/
theorem newline_roundsText (isPretty : Bool) (level : ℕ) (t : Bytes) (ts : List Bytes) :
    (if isPretty then str "\n" else []) ++ roundsText isPretty level (t :: ts) =
      lineBreak isPretty (level+1) ++ t ++ ts.flatMap (fun t => 0x2c :: (lineBreak isPretty (level+1) ++ t)) ++
        (if isPretty then str "\n" else []) := by
  have hbreak : lineBreak isPretty (level+1) =
      (if isPretty then str "\n" else []) ++ (if isPretty then List.replicate (4*(level+1)) 0x20 else []) := by
    cases isPretty <;> rfl
  induction ts generalizing t with
  | nil => simp [roundsText, hbreak]
  | cons t' ts ih =>
    have hcomma : str "," = [0x2c] := by decide
    have hnext := ih t'
    rw [roundsText, List.flatMap_cons]
    simp only [List.isEmpty_cons, Bool.not_false, if_true, List.flatten_cons, List.flatten_nil,
      List.append_nil, List.append_assoc, hnext, hcomma, List.cons_append, List.nil_append]
    rw [hbreak]
    simp only [List.append_assoc]

theorem prints_serializeBlock {opening closing : Bytes} {o c : UInt8} (ho : opening = [o])
    (hc : closing = [c]) (isPretty : Bool) (level : ℕ) {items : List (List (Writer UInt8))}
    {texts : List (List Bytes)} (h : PrintsAll items texts) :
    Prints 0 (serializeBlock opening closing isPretty level items)
      (bracketed o c isPretty level (texts.map List.flatten)) true := by
  subst ho hc
  have hfront : List.Forall₂ (fun w t => Prints (0 : UInt8) w t false)
      [appendString [o], .onlyIf (!items.isEmpty && isPretty) (appendString (str "\n"))]
      [[o], if !items.isEmpty && isPretty then str "\n" else []] :=
    .cons (prints_appendString (by simp)).weaken (.cons ((prints_appendString (by decide)).onlyIf _) .nil)
  have hindent : List.Forall₂ (fun w t => Prints (0 : UInt8) w t false)
      [.onlyIf (!items.isEmpty && isPretty) (appendIndent level)]
      [if !items.isEmpty && isPretty then List.replicate (4*level) 0x20 else []] :=
    .cons ((prints_appendIndent _).onlyIf _) .nil
  have hblock := Prints.inOrder
    (List.rel_append (List.rel_append hfront (prints_serializeRounds isPretty level h)) hindent)
    (@prints_appendString [c] (by simp))
  -- what is left is that the pieces make up the text
  cases h with
  | nil => exact hblock
  | @cons pieces ts items texts _ _ =>
    have hlines := newline_roundsText isPretty level ts.flatten (texts.map List.flatten)
    have hbreak : lineBreak isPretty level =
        (if isPretty then str "\n" else []) ++ (if isPretty then List.replicate (4*level) 0x20 else []) := by
      cases isPretty <;> rfl
    have htext : ([[o], if !(pieces :: items).isEmpty && isPretty then str "\n" else []] ++
            roundsTexts isPretty level (ts :: texts) ++
            [if !(pieces :: items).isEmpty && isPretty then List.replicate (4*level) 0x20 else []]).flatten ++ [c] =
        bracketed o c isPretty level ((ts :: texts).map List.flatten) := by
      rw [List.map_cons, bracketed, hbreak, List.flatten_append, List.flatten_append, flatten_roundsTexts,
        List.map_cons]
      simp only [List.isEmpty_cons, Bool.not_false, Bool.true_and, List.flatten_cons, List.flatten_nil,
        List.append_nil, List.cons_append, List.nil_append]
      rw [hlines]
      simp only [List.append_assoc]
    rw [← htext]
    exact hblock

theorem prints_serializeMember (isPretty : Bool) {values : List (Bytes × Writer UInt8)} {key text : Bytes}
    {w : Writer UInt8} (hkey : values.lookup key = some w) (h : Prints 0 w text true) :
    List.Forall₂ (fun w t => Prints 0 w t false) (serializeMember isPretty values key)
      [jsonSerializeString key, str ":", if isPretty then str " " else [], text] := by
  rw [serializeMember, hkey, Option.getD_some]
  exact .cons (prints_jsonSerializeString key).weaken (.cons (prints_appendString (by decide)).weaken
    (.cons ((prints_appendString (by decide)).onlyIf isPretty) (.cons h.weaken .nil)))

theorem flatten_member (isPretty : Bool) (key text : Bytes) :
    [jsonSerializeString key, str ":", if isPretty then str " " else [], text].flatten =
      memberText isPretty key text := by
  have hcolon : str ":" = [0x3a] := by decide
  have hblank : str " " = [0x20] := by decide
  simp [memberText, hcolon, hblank]

/-- By induction over the value, both passes print its text. -/
theorem prints_jsonText {libc : Libc} (hlibc : libc.FitsNumBuf) (isPretty : Bool) {v : Json}
    (hv : v.WellFormed) (level : ℕ) :
    Prints 0 (jsonSerializeToBufferR libc isPretty level v) (jsonText libc isPretty level v) true := by
  induction hv generalizing level with
  | null => exact prints_appendString (by decide)
  | boolean b => cases b <;> exact prints_appendString (by decide)
  | number n => exact prints_printNumber hlibc n
  | string _ => exact prints_jsonSerializeString _
  | @array items _ ih =>
    have hitems : PrintsAll ((items.map (jsonSerializeToBufferR libc isPretty (level+1))).map (fun item => [item]))
        (items.map (fun v => [jsonText libc isPretty (level+1) v])) := by
      rw [List.map_map, PrintsAll, List.forall₂_map_left_iff, List.forall₂_map_right_iff]
      exact List.forall₂_same.mpr (fun v hv => .cons (ih v hv (level+1)).weaken .nil)
    have hblock := @prints_serializeBlock (str "[") (str "]") 0x5b 0x5d (by decide) (by decide) isPretty level _ _ hitems
    have htexts : (items.map (fun v => [jsonText libc isPretty (level+1) v])).map List.flatten =
        items.map (jsonText libc isPretty (level+1)) := by
      rw [List.map_map]
      exact List.map_congr_left (fun v _ => List.flatten_singleton)
    rw [jsonSerializeToBufferR, jsonText, itemWriters_eq_map, itemTexts_eq_map, ← htexts]
    exact hblock
  | @object members hnames _ _ ih =>
    have hitems : PrintsAll
        ((members.map (fun m => (m.1, jsonSerializeToBufferR libc isPretty (level+1) m.2))).map
          (fun m => serializeMember isPretty
            (members.map (fun m => (m.1, jsonSerializeToBufferR libc isPretty (level+1) m.2))) m.1))
        (members.map (fun m => [jsonSerializeString m.1, str ":", if isPretty then str " " else [],
          jsonText libc isPretty (level+1) m.2])) := by
      rw [List.map_map, PrintsAll, List.forall₂_map_left_iff, List.forall₂_map_right_iff]
      refine List.forall₂_same.mpr ?_
      intro m hm
      have hfound : (members.map (fun m => (m.1, jsonSerializeToBufferR libc isPretty (level+1) m.2))).lookup m.1 =
          some (jsonSerializeToBufferR libc isPretty (level+1) m.2) := by
        -- no other member has this name
        refine lookup_eq_some_of_unique (List.mem_map.mpr ⟨m, hm, rfl⟩) ?_
        intro w hw
        obtain ⟨m', hm', he⟩ := List.mem_map.mp hw
        obtain ⟨hname, hvalue⟩ := Prod.mk.inj he
        have hsame : m' = m := List.inj_on_of_nodup_map hnames hm' hm hname
        rw [← hvalue, hsame]
      exact prints_serializeMember isPretty hfound (ih m hm (level+1))
    have hblock := @prints_serializeBlock (str "\x7b") (str "\x7d") 0x7b 0x7d (by decide) (by decide) isPretty level _ _
      hitems
    have htexts : (members.map (fun m => [jsonSerializeString m.1, str ":", if isPretty then str " " else [],
          jsonText libc isPretty (level+1) m.2])).map List.flatten =
        members.map (fun m => memberText isPretty m.1 (jsonText libc isPretty (level+1) m.2)) := by
      rw [List.map_map]
      exact List.map_congr_left (fun m _ => flatten_member isPretty m.1 _)
    rw [jsonSerializeToBufferR, jsonText, memberWriters_eq_map, memberTexts_eq_map, ← htexts]
    exact hblock

section
variable {libc : Libc} (hlibc : libc.FitsNumBuf) (isPretty : Bool) {v : Json} (hv : v.WellFormed)
include hlibc hv

theorem jsonSerializationSize_eq :
    jsonSerializationSize libc isPretty v =
      if (jsonText libc isPretty 0 v).length < Writer.intMax then .ok ((jsonText libc isPretty 0 v).length+1)
      else .error .fault := by
  have hprints := prints_jsonText hlibc isPretty hv 0
  rw [jsonSerializationSize]
  by_cases hfit : (jsonText libc isPretty 0 v).length ≤ Writer.intMax
  · rw [hprints.counted hfit]
  · rw [hprints.overflow (Nat.lt_of_not_le hfit), if_neg (by omega)]

theorem jsonSerializeToBuffer_eq {buf : Bytes} {size : ℕ} (hsize : size ≤ buf.length) :
    jsonSerializeToBuffer libc isPretty v buf size =
      if Writer.intMax ≤ (jsonText libc isPretty 0 v).length then .error .fault
      else if (jsonText libc isPretty 0 v).length < size then
        .ok (jsonText libc isPretty 0 v ++ 0 :: buf.drop ((jsonText libc isPretty 0 v).length+1))
      else .error .failure := by
  have hsizes := jsonSerializationSize_eq hlibc isPretty hv
  unfold jsonSerializeToBuffer
  by_cases hfit : (jsonText libc isPretty 0 v).length < Writer.intMax
  · rw [if_pos hfit] at hsizes
    simp only [hsizes, bind, Except.bind]
    rw [if_neg (Nat.not_le_of_lt hfit)]
    by_cases hroom : (jsonText libc isPretty 0 v).length < size
    · have hbuf : (jsonText libc isPretty 0 v).length < buf.length := by omega
      have hwritten := (prints_jsonText hlibc isPretty hv 0).from_start hfit.le hbuf
      rw [if_neg (by omega), if_pos hroom, hwritten]
      rfl
    · rw [if_pos (by omega), if_neg hroom]
  · rw [if_neg hfit] at hsizes
    rw [hsizes, if_pos (Nat.le_of_not_lt hfit)]
    rfl

theorem jsonSerializeToString_eq {malloc : ℕ → Option Bytes}
    (hmalloc : ∀ n mem, malloc n = some mem → mem.length = n) :
    jsonSerializeToString libc isPretty v malloc =
      if Writer.intMax ≤ (jsonText libc isPretty 0 v).length then .error .fault
      else (malloc ((jsonText libc isPretty 0 v).length+1)).elim (.error .failure)
        (fun _ => .ok (jsonText libc isPretty 0 v ++ [0])) := by
  have hsizes := jsonSerializationSize_eq hlibc isPretty hv
  unfold jsonSerializeToString
  by_cases hfit : (jsonText libc isPretty 0 v).length < Writer.intMax
  · rw [if_pos hfit] at hsizes
    simp only [hsizes, bind, Except.bind, Nat.add_one_ne_zero, if_false]
    rw [if_neg (Nat.not_le_of_lt hfit)]
    cases hm : malloc ((jsonText libc isPretty 0 v).length+1) with
    | none => rfl
    | some buf =>
      have hlen := hmalloc _ _ hm
      simp only
      rw [jsonSerializeToBuffer_eq hlibc isPretty hv hlen.ge, if_neg (Nat.not_le_of_lt hfit),
        if_pos (Nat.lt_succ_self _), ← hlen, List.drop_length, Option.elim_some]
  · rw [if_neg hfit] at hsizes
    rw [hsizes, if_pos (Nat.le_of_not_lt hfit)]
    rfl

end

/-- Both passes agree: the buffer is written if and only if it has room for the text and its
NUL, nothing behind them changes, and no byte outside is written; the string that is allocated
has no byte to spare. Only a text that does not fit into an `int` with its NUL overflows in the
first pass. -/
theorem serialization_exact {libc : Libc} (hlibc : libc.FitsNumBuf) (isPretty : Bool) {v : Json}
    (hv : v.WellFormed) :
    (∀ (buf : Bytes) (size : ℕ), size ≤ buf.length →
      jsonSerializeToBuffer libc isPretty v buf size =
        if Writer.intMax ≤ (jsonText libc isPretty 0 v).length then .error .fault
        else if (jsonText libc isPretty 0 v).length < size then
          .ok (jsonText libc isPretty 0 v ++ 0 :: buf.drop ((jsonText libc isPretty 0 v).length+1))
        else .error .failure) ∧
    ∀ malloc : ℕ → Option Bytes, (∀ n mem, malloc n = some mem → mem.length = n) →
      jsonSerializeToString libc isPretty v malloc =
        if Writer.intMax ≤ (jsonText libc isPretty 0 v).length then .error .fault
        else (malloc ((jsonText libc isPretty 0 v).length+1)).elim (.error .failure)
          (fun _ => .ok (jsonText libc isPretty 0 v ++ [0])) :=
  ⟨fun _ _ hsize => jsonSerializeToBuffer_eq hlibc isPretty hv hsize,
    fun _ hmalloc => jsonSerializeToString_eq hlibc isPretty hv hmalloc⟩

theorem fitsNumBuf_signedLibc : signedLibc.FitsNumBuf := by
  intro n
  cases n with
  | negZero => decide
  | rat x =>
    have hdigits : (((Nat.toDigits 10 x.num.natAbs).map (fun c => c.toNat.toUInt8)).take 17).length ≤ 17 :=
      List.length_take_le ..
    dsimp only [signedLibc]
    split_ifs
    · rw [List.length_cons, numBufSize]
      omega
    · rw [numBufSize]
      omega

/-- A list of a string that needs an escape and of an object with numbers, none of them positive. -/
def mixedList : Json :=
  .array [.string (str "a/b"), .object [(str "k", .number .negZero), (str "l", .number (-5 : ℤ))]]

def mixedText : Bytes := str "[\n    \"a\\/b\",\n    \x7b\n        \"k\": -0,\n        \"l\": -5\n    \x7d\n]"

theorem wellFormed_mixedList : mixedList.WellFormed := by
  have hobject : (Json.object [(str "k", .number .negZero), (str "l", .number (-5 : ℤ))]).WellFormed := by
    apply Json.WellFormed.object (by decide)
    · exact List.forall_mem_cons.mpr ⟨by decide, List.forall_mem_singleton.mpr (by decide)⟩
    · exact List.forall_mem_cons.mpr ⟨.number _, List.forall_mem_singleton.mpr (.number _)⟩
  apply Json.WellFormed.array
  exact List.forall_mem_cons.mpr ⟨.string (by decide), List.forall_mem_singleton.mpr hobject⟩

/-- Its text has 60 bytes: it does not fit into as many, and into 61 to the byte. -/
theorem serialization_exact_list :
    jsonSerializeToBuffer signedLibc true mixedList (List.replicate 70 7) 61 =
        .ok (mixedText ++ 0 :: List.replicate 9 7) ∧
      jsonSerializeToBuffer signedLibc true mixedList (List.replicate 70 7) 60 = .error .failure ∧
      jsonSerializeToString signedLibc true mixedList (fun n => some (List.replicate n 7)) = .ok (mixedText ++ [0]) := by
  have htext : jsonText signedLibc true 0 mixedList = mixedText := by decide +kernel
  have hlen : mixedText.length = 60 := by decide +kernel
  have hint : ¬Writer.intMax ≤ mixedText.length := by
    rw [hlen]
    decide
  obtain ⟨hbuffer, hstring⟩ := serialization_exact fitsNumBuf_signedLibc true wellFormed_mixedList
  have hroom := hbuffer (List.replicate 70 7) 61 (by decide)
  have hfull := hbuffer (List.replicate 70 7) 60 (by decide)
  have halloc := hstring (fun n => some (List.replicate n 7)) (by
    rintro n mem h
    cases h
    exact List.length_replicate)
  rw [htext, if_neg hint, hlen] at hroom hfull halloc
  exact ⟨hroom, hfull, halloc⟩

end SecureChaincode
