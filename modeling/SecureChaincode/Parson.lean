import SecureChaincode.KeyNames

/-! `common/json/parson.c`. A pointer into a text is what the memory holds from there on, up
to the end of the buffer. -/
namespace SecureChaincode

/-- How a scan ends without a result: with NULL, or with a read behind the buffer. -/
inductive JsonExit
  | null
  | fault
deriving DecidableEq

abbrev Scan := Except JsonExit

/-- A `double` that is neither infinite nor NaN. Zero has a sign. -/
inductive Double
  | rat (q : ℚ)
  | negZero
deriving DecidableEq

def Double.toRat : Double → ℚ
  | .rat q => q
  | .negZero => 0

instance : IntCast Double := ⟨fun n => .rat n⟩

/-- `JSON_Value`. Strings and names are C strings. A number is never infinite or NaN, as
`json_value_init_number` refuses them. -/
inductive Json
  | null
  | boolean (b : Bool)
  | number (n : Double)
  | string (s : Bytes)
  | array (items : List Json)
  | object (members : List (Bytes × Json))

/-- `strtod` gives the number and how many bytes it has read, `null` if `errno` is set or
the number is not finite; `printDouble` is the format `"%1.17g"`. -/
structure Libc where
  strtod : Bytes → Scan (Double × ℕ)
  printDouble : Double → Bytes

/-- The byte at the pointer, and the pointer behind it. -/
def look : Bytes → Scan (UInt8 × Bytes)
  | [] => .error .fault
  | c :: s => .ok (c, s)

def isspace (c : UInt8) : Bool := c == 0x20 || (0x09 ≤ c && c ≤ 0x0d)

def skipWhitespaces (s : Bytes) : Bytes := s.dropWhile isspace

/-- `strncmp` with a token, which is then skipped. -/
def skipToken : Bytes → Bytes → Scan Bytes
  | [], s => .ok s
  | _ :: _, [] => .error .fault
  | t :: token, c :: s => if c = t then skipToken token s else .error .null

/-- From behind the opening quote: the text up to the closing one, and what is behind that. -/
def skipQuotes : Bytes → Scan (Bytes × Bytes)
  | [] => .error .fault
  | c :: s =>
    if c = 0x22 then .ok ([], s)
    else if c = 0 then .error .null
    else if c = 0x5c then
      match s with
      | [] => .error .fault
      | e :: s =>
        if e = 0 then .error .null else (skipQuotes s).map (fun r => (c :: e :: r.1, r.2))
    else (skipQuotes s).map (fun r => (c :: r.1, r.2))

def hexCharToInt (c : UInt8) : Option ℕ :=
  if 0x30 ≤ c ∧ c ≤ 0x39 then some (c.toNat-0x30)
  else if 0x61 ≤ c ∧ c ≤ 0x66 then some (c.toNat-0x61+10)
  else if 0x41 ≤ c ∧ c ≤ 0x46 then some (c.toNat-0x41+10)
  else none

/-- Four digits of a `\u` escape. -/
def parseUtf16Hex (x1 x2 x3 x4 : UInt8) : Option ℕ := do
  return (← hexCharToInt x1)*4096+(← hexCharToInt x2)*256+(← hexCharToInt x3)*16+(← hexCharToInt x4)

/-- Where the string ends before the four digits do, the quote behind it is read as one of
them and refused, unless the digits behind that leave the buffer. -/
def parseUtf16Short (digits behind : Bytes) : JsonExit :=
  if 4 ≤ (digits ++ 0x22 :: behind).length ∨ 0 ∈ behind then .null else .fault

/-- The bytes that `parse_utf16` writes for a code point. -/
def utf8Bytes (cp : ℕ) : Bytes :=
  if cp < 0x80 then [cp.toUInt8]
  else if cp < 0x800 then [(cp/0x40+0xc0).toUInt8, (cp%0x40+0x80).toUInt8]
  else if cp < 0x10000 then
    [(cp/0x1000+0xe0).toUInt8, (cp/0x40%0x40+0x80).toUInt8, (cp%0x40+0x80).toUInt8]
  else
    [(cp/0x40000+0xf0).toUInt8, (cp/0x1000%0x40+0x80).toUInt8, (cp/0x40%0x40+0x80).toUInt8,
      (cp%0x40+0x80).toUInt8]

/-- The escapes of one letter. -/
def unescape (c : UInt8) : Option UInt8 :=
  if c = 0x22 ∨ c = 0x5c ∨ c = 0x2f then some c
  else if c = 0x62 then some 0x08
  else if c = 0x66 then some 0x0c
  else if c = 0x6e then some 0x0a
  else if c = 0x72 then some 0x0d
  else if c = 0x74 then some 0x09
  else none

/-- The text between two quotes without its escapes; `behind` is what follows the second. -/
def processString (behind : Bytes) : Bytes → Scan Bytes
  | [] => .ok []
  | c :: s =>
    if c = 0x5c then
      match s with
      -- `skip_quotes` leaves no single backslash at the end
      | [] => .error .null
      | e :: s =>
        if e = 0x75 then
          match s with
          | x1 :: x2 :: x3 :: x4 :: s =>
            match parseUtf16Hex x1 x2 x3 x4 with
            | none => .error .null
            | some cp =>
              if cp < 0xd800 ∨ 0xdfff < cp then (processString behind s).map (utf8Bytes cp ++ ·)
              -- a trail surrogate without a lead
              else if 0xdbff < cp then .error .null
              else
                match s with
                | b :: u :: s =>
                  if b = 0x5c ∧ u = 0x75 then
                    match s with
                    | y1 :: y2 :: y3 :: y4 :: s =>
                      match parseUtf16Hex y1 y2 y3 y4 with
                      | none => .error .null
                      | some trail =>
                        if 0xdc00 ≤ trail ∧ trail ≤ 0xdfff then
                          (processString behind s).map
                            (utf8Bytes ((cp-0xd800)*0x400+(trail-0xdc00)+0x10000) ++ ·)
                        else .error .null
                    | short => .error (parseUtf16Short short behind)
                  else .error .null
                | _ => .error .null
          | short => .error (parseUtf16Short short behind)
        else
          match unescape e with
          | some b => (processString behind s).map (b :: ·)
          | none => .error .null
    else if c < 0x20 then .error .null
    else (processString behind s).map (c :: ·)

/-- The result is used as a C string, so an escaped NUL ends it. -/
def getQuotedString (s : Bytes) : Scan (Bytes × Bytes) := do
  let (c, s) ← look s
  if c = 0x22 then
    let (text, behind) ← skipQuotes s
    return (cstr (← processString behind text), behind)
  else .error .null

/-- The rounds of `parse_array_value`. At a NUL its loop ends and the bracket is missed;
`parse_value` fails there as well. A round uses up at least the comma, so as many rounds as
there are bytes are enough. -/
def parseItems (parseValue : Bytes → Scan (Json × Bytes)) : ℕ → Bytes → Scan (List Json × Bytes)
  | 0, _ => .error .fault
  | n+1, s => do
    let (item, s) ← parseValue s
    let (c, s) ← look (skipWhitespaces s)
    if c = 0x2c then
      let (items, s) ← parseItems parseValue n (skipWhitespaces s)
      return (item :: items, s)
    else if c = 0x5d then return ([item], s)
    else .error .null

/-- From behind the opening bracket. -/
def parseArrayValue (parseValue : Bytes → Scan (Json × Bytes)) (s : Bytes) : Scan (Json × Bytes) := do
  let s := skipWhitespaces s
  let (c, s') ← look s
  if c = 0x5d then return (.array [], s')
  else
    let (items, s) ← parseItems parseValue s.length s
    return (.array items, s)

/-- The rounds of `parse_object_value`. A name that is already there is an error. -/
def parseMembers (parseValue : Bytes → Scan (Json × Bytes)) :
    ℕ → List (Bytes × Json) → Bytes → Scan (List (Bytes × Json) × Bytes)
  | 0, _, _ => .error .fault
  | n+1, members, s => do
    let (newKey, s) ← getQuotedString s
    let (c, s) ← look (skipWhitespaces s)
    if c = 0x3a then
      let (newValue, s) ← parseValue s
      if members.any (fun m => m.1 == newKey) then .error .null
      else
        let members := members ++ [(newKey, newValue)]
        let (c, s) ← look (skipWhitespaces s)
        if c = 0x2c then parseMembers parseValue n members (skipWhitespaces s)
        else if c = 0x7d then return (members, s)
        else .error .null
    else .error .null

/-- From behind the opening brace. -/
def parseObjectValue (parseValue : Bytes → Scan (Json × Bytes)) (s : Bytes) : Scan (Json × Bytes) := do
  let s := skipWhitespaces s
  let (c, s') ← look s
  if c = 0x7d then return (.object [], s')
  else
    let (members, s) ← parseMembers parseValue s.length [] s
    return (.object members, s)

def parseStringValue (s : Bytes) : Scan (Json × Bytes) := do
  let (text, s) ← getQuotedString s
  return (.string text, s)

def parseBooleanValue (s : Bytes) : Scan (Json × Bytes) :=
  match skipToken (str "true") s with
  | .ok s => .ok (.boolean true, s)
  | .error .fault => .error .fault
  | .error .null => (skipToken (str "false") s).map (fun s => (.boolean false, s))

/-- No leading zero, and no hexadecimal number. -/
def isDecimal (text : Bytes) : Bool :=
  !(1 < text.length && text[0]? == some 0x30 && text[1]? != some 0x2e) &&
    !(2 < text.length && text.take 2 == str "-0" && text[2]? != some 0x2e) &&
    !text.any (fun c => c == 0x78 || c == 0x58 || c == 0)

def parseNumberValue (libc : Libc) (s : Bytes) : Scan (Json × Bytes) := do
  let (number, len) ← libc.strtod s
  if isDecimal (s.take len) then return (.number number, s.drop len) else .error .null

def parseNullValue (s : Bytes) : Scan (Json × Bytes) :=
  (skipToken (str "null") s).map (fun s => (.null, s))

/-- The first argument counts the levels down to `MAX_NESTING`. -/
def parseValue (libc : Libc) : ℕ → Bytes → Scan (Json × Bytes)
  | 0, _ => .error .null
  | levels+1, s => do
    let s := skipWhitespaces s
    let (c, s') ← look s
    if c = 0x7b then parseObjectValue (parseValue libc levels) s'
    else if c = 0x5b then parseArrayValue (parseValue libc levels) s'
    else if c = 0x22 then parseStringValue s
    else if c = 0x66 ∨ c = 0x74 then parseBooleanValue s
    else if c = 0x2d ∨ 0x30 ≤ c ∧ c ≤ 0x39 then parseNumberValue libc s
    else if c = 0x6e then parseNullValue s
    else .error .null

def maxNesting : ℕ := 2048

/-- What follows the value is not looked at. -/
def jsonParseString (libc : Libc) (s : Bytes) : Scan Json := do
  let s ← match skipToken [0xef, 0xbb, 0xbf] s with
    | .ok s => .ok s
    | .error .null => .ok s
    | .error .fault => .error .fault
  let (value, _) ← parseValue libc (maxNesting+1) s
  return value

/-- The value as the callers have it: `none` is a fault, and NULL is a value like others. -/
def orNull (value : Scan Json) : Option (Option Json) :=
  match value with
  | .ok v => some (some v)
  | .error .null => some none
  | .error .fault => none

def jsonObjectGetValue (name : Bytes) : Option Json → Option Json
  | some (.object members) => members.lookup name
  | _ => none

/-- `json_value_get_string`. -/
def Json.getString : Option Json → Option Bytes
  | some (.string s) => some s
  | _ => none

/-- `json_value_get_number`, 0 for what is not a number. -/
def Json.getNumber : Option Json → Double
  | some (.number n) => n
  | _ => .rat 0

/-- `json_value_get_boolean`, where -1 for what is not a boolean counts as true. -/
def Json.getBoolean : Option Json → Bool
  | some (.boolean b) => b
  | _ => true

/-- `json_value_get_array`. -/
def Json.getArray : Option Json → Option (List Json)
  | some (.array items) => some items
  | _ => none

def jsonObjectGetString (name : Bytes) (root : Option Json) : Option Bytes :=
  Json.getString (jsonObjectGetValue name root)

/-! The serializer, for the objects of strings, booleans and numbers that the chaincode
stores. -/

def escape (c : UInt8) : Bytes :=
  if c = 0x22 ∨ c = 0x5c ∨ c = 0x2f then [0x5c, c]
  else if c = 0x08 then str "\\b"
  else if c = 0x0c then str "\\f"
  else if c = 0x0a then str "\\n"
  else if c = 0x0d then str "\\r"
  else if c = 0x09 then str "\\t"
  else if c < 0x20 then
    str "\\u00" ++ [if c < 0x10 then 0x30 else 0x31, (str "0123456789abcdef").getD (c.toNat%16) 0]
  else [c]

def jsonSerializeString (s : Bytes) : Bytes := str "\"" ++ s.flatMap escape ++ str "\""

/-- Values that are no objects or arrays. -/
def jsonSerializeScalar (libc : Libc) : Json → Bytes
  | .string s => jsonSerializeString s
  | .boolean b => if b then str "true" else str "false"
  | .number n => libc.printDouble n
  | _ => str "null"

def jsonSerializeObject (libc : Libc) (members : List (Bytes × Json)) : Bytes :=
  str "\x7b" ++
    (str ",").intercalate
      (members.map (fun m => jsonSerializeString m.1 ++ str ":" ++ jsonSerializeScalar libc m.2)) ++
    str "\x7d"

def isCont (c : UInt8) : Bool := c &&& 0xc0 == 0x80

/-- `is_valid_utf8` of a C string. -/
def isValidUtf8 : Bytes → Bool
  | [] => true
  | c :: s =>
    if c < 0x80 then isValidUtf8 s
    else if c < 0xc2 then false
    else if c < 0xe0 then
      match s with
      | c1 :: s => isCont c1 && isValidUtf8 s
      | _ => false
    else if c < 0xf0 then
      match s with
      | c1 :: c2 :: s =>
        -- neither overlong nor a surrogate
        isCont c1 && isCont c2 && !(c == 0xe0 && c1 < 0xa0) && !(c == 0xed && 0xa0 ≤ c1) && isValidUtf8 s
      | _ => false
    else if c < 0xf5 then
      match s with
      | c1 :: c2 :: c3 :: s =>
        isCont c1 && isCont c2 && isCont c3 && !(c == 0xf0 && c1 < 0x90) && !(c == 0xf4 && 0x90 ≤ c1) &&
          isValidUtf8 s
      | _ => false
    else false

/-- `json_object_set_string` drops a string that is not UTF-8. -/
def stringMember (name s : Bytes) : List (Bytes × Json) :=
  if isValidUtf8 (cstr s) then [(name, .string (cstr s))] else []

def isDigit (c : UInt8) : Bool := 0x30 ≤ c && c ≤ 0x39

/-- A C library for whole numbers, which prints them with at most 17 digits. -/
def signedLibc : Libc where
  strtod s :=
    let digits := (if s.head? = some 0x2d then s.drop 1 else s).takeWhile isDigit
    let n : ℕ := digits.foldl (fun n c => n*10+(c.toNat-0x30)) 0
    if digits = [] then .ok (.rat 0, 0)
    else if s.head? = some 0x2d then .ok (if n = 0 then .negZero else .rat (-n), digits.length+1)
    else .ok (.rat n, digits.length)
  printDouble
    | .negZero => str "-0"
    | .rat x =>
      let digits := (Nat.toDigits 10 x.num.natAbs).map (fun c => c.toNat.toUInt8)
      if x.num < 0 then 0x2d :: digits.take 17 else digits.take 17

example : (jsonParseString signedLibc (str "[\"a\\n\", null]x")).toOption.bind
    (fun v => (Json.getArray (some v)).map (fun l => l.map (fun i => Json.getString (some i)))) =
      some [some [0x61, 0x0a], none] := by decide +kernel

end SecureChaincode
