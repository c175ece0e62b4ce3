import SecureChaincode.Shim

/-! The auction chaincode: `auction_cc.cpp` and `auction_json.cpp`. -/
namespace SecureChaincode

def maxValueSize : UInt32 := 1024

/-- `PREFIX`, with `SEP` at both ends. -/
def bidPrefix : Bytes := str ".somePrefix."

structure Auction where
  name : Bytes
  isOpen : Bool

structure Bid where
  bidderName : Bytes
  value : ℤ

section
variable (libc : Libc)

/-- A string member that is missing is a NULL string, also where the text is no object. -/
def unmarshalAuction (json : Bytes) : Option Auction := do
  let root ← orNull (jsonParseString libc json)
  let name ← jsonObjectGetString (str "name") root
  return ⟨name, Json.getBoolean (jsonObjectGetValue (str "is_open") root)⟩

/-- The conversion of a `double` to an `int`, undefined outside of its range. -/
def doubleToInt (x : Double) : Option ℤ :=
  let n := if 0 ≤ x.toRat then ⌊x.toRat⌋ else ⌈x.toRat⌉
  if -2147483648 ≤ n ∧ n ≤ 2147483647 then some n else none

def unmarshalBid (json : Bytes) : Option Bid := do
  let root ← orNull (jsonParseString libc json)
  let bidderName ← jsonObjectGetString (str "bidder") root
  let value ← doubleToInt (Json.getNumber (jsonObjectGetValue (str "value") root))
  return ⟨bidderName, value⟩

def marshalAuction (auction : Auction) : Bytes :=
  jsonSerializeObject libc (stringMember (str "name") auction.name ++ [(str "is_open", .boolean auction.isOpen)])

def marshalBid (bid : Bid) : Bytes :=
  jsonSerializeObject libc (stringMember (str "bidder") bid.bidderName ++ [(str "value", .number bid.value)])

/-- `std::stoi`; `none` is one of its exceptions. -/
def stoi (s : Bytes) : Option ℤ :=
  let s := skipWhitespaces s
  let negative := s.head? = some 0x2d
  let digits := (if negative ∨ s.head? = some 0x2b then s.drop 1 else s).takeWhile
    (fun c => 0x30 ≤ c && c ≤ 0x39)
  let n : ℤ := digits.foldl (fun n c => n*10+(c.toNat-0x30)) 0
  let n := if negative then -n else n
  if digits ≠ [] ∧ -2147483648 ≤ n ∧ n ≤ 2147483647 then some n else none

example : stoi (str " -12x") = some (-12) := by decide

def auctionCreate (auctionName : Bytes) : Chaincode Bytes := do
  let (_, auctionBytesLen) ← getState auctionName maxValueSize
  if 0 < auctionBytesLen then return str "AUCTION_ALREADY_EXISTS"
  else
    putState auctionName (marshalAuction libc ⟨auctionName, true⟩)
    return str "OK"

def auctionSubmit (auctionName bidderName : Bytes) (value : ℤ) : Chaincode Bytes := do
  let (auctionBytes, auctionBytesLen) ← getState auctionName maxValueSize
  if auctionBytesLen = 0 then return str "AUCTION_ALREADY_EXISTS"
  else
    let theAuction ← Program.orFault (unmarshalAuction libc auctionBytes)
    if !theAuction.isOpen then return str "AUCTION_ALREADY_CLOSED"
    else
      let newKey := bidPrefix ++ auctionName ++ str "." ++ bidderName ++ str "."
      putState newKey (marshalBid libc ⟨bidderName, value⟩)
      return str "OK"

def auctionClose (auctionName : Bytes) : Chaincode Bytes := do
  let (auctionBytes, auctionBytesLen) ← getState auctionName maxValueSize
  if auctionBytesLen = 0 then return str "AUCTION_ALREADY_EXISTS"
  else
    let theAuction ← Program.orFault (unmarshalAuction libc auctionBytes)
    if !theAuction.isOpen then return str "AUCTION_ALREADY_CLOSED"
    else
      putState auctionName (marshalAuction libc { theAuction with isOpen := false })
      return str "OK"

/-- The variables of the loop over the bids. -/
structure Winner where
  winner : Bid
  high : ℤ
  draw : Bool

/-- One round of the loop. -/
def considerBid (acc : Winner) (u : Bytes × Bytes) : Option Winner := do
  let b ← unmarshalBid libc (u.2 ++ [0])
  return if acc.high < b.value then ⟨b, b.value, false⟩
    else if b.value = acc.high then { acc with draw := true }
    else acc

/-- `uninit` is the value of the winning bid as long as nobody has set it. -/
def auctionEval (uninit : ℤ) (auctionName : Bytes) : Chaincode Bytes := do
  let (auctionBytes, auctionBytesLen) ← getState auctionName maxValueSize
  if auctionBytesLen = 0 then return str "AUCTION_ALREADY_EXISTS"
  else
    let theAuction ← Program.orFault (unmarshalAuction libc auctionBytes)
    if theAuction.isOpen then return str "AUCTION_ALREADY_CLOSED"
    else
      let values ← getStateByPartialCompositeKey (bidPrefix ++ auctionName ++ str ".") ∅
      if values.isEmpty then return str "NO_BIDS"
      else
        let acc ← Program.orFault (values.toList.foldlM (considerBid libc) ⟨⟨[], uninit⟩, -1, false⟩)
        if acc.draw then return str "DRAW" else return marshalBid libc acc.winner

/-- `invoke` of the auction. An argument that is missing is read behind the vector. -/
def auctionInvoke (uninit : ℤ) : ChaincodeEntry := fun args maxResponseLen => do
  let argss ← Program.orFault (unmarshalArgs libc args)
  let functionName ← Program.orFault argss[0]?
  let auctionName ← Program.orFault argss[1]?
  let result ←
    if functionName = str "create" then auctionCreate libc auctionName
    else if functionName = str "submit" then do
      let bidderName ← Program.orFault argss[2]?
      let value ← Program.orFault (argss[3]?.bind stoi)
      auctionSubmit libc auctionName bidderName value
    else if functionName = str "close" then auctionClose libc auctionName
    else if functionName = str "eval" then auctionEval libc uninit auctionName
    else pure []
  if maxResponseLen < result.length then return none else return some result

end

end SecureChaincode
