import SecureChaincode.Auction
import SecureChaincode.ParsonStrings

/-! The four operations of the auction, apart from the texts in which they arrive. -/
namespace SecureChaincode

inductive Operation
  | create (auctionName : Bytes)
  | submit (auctionName bidderName : Bytes) (value : ℤ)
  | close (auctionName : Bytes)
  | eval (auctionName : Bytes)
deriving DecidableEq

/-- The auction that an operation is addressed to. -/
def Operation.auctionName : Operation → Bytes
  | .create auctionName => auctionName
  | .submit auctionName _ _ => auctionName
  | .close auctionName => auctionName
  | .eval auctionName => auctionName

/-- The names in an operation. -/
def Operation.names : Operation → List Bytes
  | .create auctionName => [auctionName]
  | .submit auctionName bidderName _ => [auctionName, bidderName]
  | .close auctionName => [auctionName]
  | .eval auctionName => [auctionName]

theorem Operation.auctionName_mem (op : Operation) : op.auctionName ∈ op.names := by
  cases op <;> exact List.mem_cons_self

section
variable (libc : Libc)

def Operation.program (uninit : ℤ) : Operation → Chaincode Bytes
  | .create auctionName => auctionCreate libc auctionName
  | .submit auctionName bidderName value => auctionSubmit libc auctionName bidderName value
  | .close auctionName => auctionClose libc auctionName
  | .eval auctionName => auctionEval libc uninit auctionName

/-- The operation that `invoke` finds in its arguments: none if one is missing or the function
is not known. -/
def readOperation (args : Bytes) : Option Operation := do
  match ← unmarshalArgs libc args with
  | functionName :: auctionName :: rest =>
    if functionName = str "create" then some (.create auctionName)
    else if functionName = str "submit" then
      return .submit auctionName (← rest[0]?) (← rest[1]?.bind stoi)
    else if functionName = str "close" then some (.close auctionName)
    else if functionName = str "eval" then some (.eval auctionName)
    else none
  | _ => none

/-- The end of `invoke`. -/
def respond (maxResponseLen : ℕ) (result : Bytes) : Chaincode (Option Bytes) :=
  if maxResponseLen < result.length then pure none else pure (some result)

variable {libc} {args : Bytes}

/-- `invoke` runs the operation that it finds. -/
theorem auctionInvoke_eq {op : Operation} (uninit : ℤ) (maxResponseLen : ℕ)
    (h : readOperation libc args = some op) :
    auctionInvoke libc uninit args maxResponseLen = op.program libc uninit >>= respond maxResponseLen := by
  obtain ⟨argss, hargs, h⟩ := Option.bind_eq_some_iff.mp h
  rw [auctionInvoke, hargs]
  match argss, h with
  | functionName :: auctionName :: rest, h =>
    dsimp only at h
    split_ifs at h with hcreate hsubmit hclose heval
    · cases h
      subst hcreate
      rfl
    · subst hsubmit
      obtain ⟨bidderName, hbidder, h⟩ := Option.bind_eq_some_iff.mp h
      obtain ⟨value, hvalue, h⟩ := Option.bind_eq_some_iff.mp h
      cases h
      have hprogram : (Program.orFault rest[0]? >>= fun bidderName =>
          Program.orFault (rest[1]?.bind stoi) >>= fun value =>
            auctionSubmit libc auctionName bidderName value >>= respond maxResponseLen) =
          auctionSubmit libc auctionName bidderName value >>= respond maxResponseLen := by
        rw [hbidder, hvalue]
        rfl
      exact hprogram
    · cases h
      subst hclose
      rfl
    · cases h
      subst heval
      rfl

/-- Without an operation it makes no call: an argument is read behind the vector, or the function
is not known and the response is empty. -/
theorem auctionInvoke_none (uninit : ℤ) (maxResponseLen : ℕ) (h : readOperation libc args = none) :
    auctionInvoke libc uninit args maxResponseLen = .fault ∨
      auctionInvoke libc uninit args maxResponseLen = .done (some []) ∧
        ∃ functionName rest, unmarshalArgs libc args = some (functionName :: rest) ∧
          functionName ∉ [str "create", str "submit", str "close", str "eval"] := by
  rw [auctionInvoke]
  cases hargs : unmarshalArgs libc args with
  | none => exact Or.inl rfl
  | some argss =>
    rw [readOperation, hargs] at h
    match argss, h with
    | [], _ => exact Or.inl rfl
    | [_], _ => exact Or.inl rfl
    | functionName :: auctionName :: rest, h =>
      change (if functionName = str "create" then _ else _) = none at h
      change (if functionName = str "create" then _ else _) = _ ∨ (if functionName = str "create" then _ else _) = _ ∧ _
      split_ifs at h ⊢ with hcreate hsubmit hclose heval
      · -- a bid with an argument missing, or with a number that is none
        left
        change (Program.orFault rest[0]? >>= fun bidderName => Program.orFault (rest[1]?.bind stoi) >>= fun value =>
          auctionSubmit libc auctionName bidderName value >>= respond maxResponseLen) = .fault
        cases hbidder : rest[0]? with
        | none => rfl
        | some bidderName =>
          cases hvalue : rest[1]?.bind stoi with
          | none => rfl
          | some value =>
            rw [hbidder, hvalue] at h
            cases h
      · exact Or.inr ⟨rfl, functionName, _, rfl, by simp [hcreate, hsubmit, hclose, heval]⟩

/-- The operation is that of the first argument, on the auction of the second. -/
theorem readOperation_args {op : Operation} {functionName auctionName : Bytes} {rest : List Bytes}
    (h : readOperation libc args = some op)
    (hargs : unmarshalArgs libc args = some (functionName :: auctionName :: rest)) :
    op.auctionName = auctionName ∧ ∀ w ∈ op.names, w = auctionName ∨ functionName = str "submit" ∧ rest[0]? = some w := by
  rw [readOperation, hargs] at h
  change (if functionName = str "create" then _ else _) = some op at h
  split_ifs at h with hcreate hsubmit hclose heval
  · cases h
    exact ⟨rfl, fun w hw => Or.inl (List.mem_singleton.mp hw)⟩
  · obtain ⟨bidderName, hbidder, h⟩ := Option.bind_eq_some_iff.mp h
    obtain ⟨value, -, h⟩ := Option.bind_eq_some_iff.mp h
    cases h
    refine ⟨rfl, fun w hw => ?_⟩
    rcases List.mem_pair.mp hw with rfl | rfl
    · exact Or.inl rfl
    · exact Or.inr ⟨hsubmit, hbidder⟩
  · cases h
    exact ⟨rfl, fun w hw => Or.inl (List.mem_singleton.mp hw)⟩
  · cases h
    exact ⟨rfl, fun w hw => Or.inl (List.mem_singleton.mp hw)⟩

/-- The names are C strings. -/
theorem readOperation_no_nul {op : Operation} (h : readOperation libc args = some op) :
    ∀ w ∈ op.names, (0 : UInt8) ∉ w := by
  obtain ⟨argss, hargs, hop⟩ := Option.bind_eq_some_iff.mp h
  match argss, hop with
  | functionName :: auctionName :: rest, _ =>
    intro w hw
    rcases (readOperation_args h hargs).2 w hw with rfl | ⟨-, hbidder⟩
    · exact unmarshalArgs_no_nul hargs (List.mem_cons_of_mem _ List.mem_cons_self)
    · exact unmarshalArgs_no_nul hargs
        (List.mem_cons_of_mem _ (List.mem_cons_of_mem _ (List.mem_of_getElem? hbidder)))

/-! What the operations do once they have read the record of the auction. -/

/-- The next step of an operation: to answer, to store something and answer `OK`, or to look at
the bids. -/
inductive Plan
  | answer (result : Bytes)
  | put (key val : Bytes)
  | tally

section
variable (libc)

/-- The plan of an operation after it has read the record; `none` is a fault. -/
def Operation.plan (auctionBytes : Bytes) (auctionBytesLen : ℕ) : Operation → Option Plan
  | .create auctionName =>
    some (if 0 < auctionBytesLen then .answer (str "AUCTION_ALREADY_EXISTS")
      else .put auctionName (marshalAuction libc ⟨auctionName, true⟩))
  | .submit auctionName bidderName value =>
    -- an auction that is not there is reported in the same way as one that is
    if auctionBytesLen = 0 then some (.answer (str "AUCTION_ALREADY_EXISTS"))
    else (unmarshalAuction libc auctionBytes).map (fun theAuction =>
      if !theAuction.isOpen then .answer (str "AUCTION_ALREADY_CLOSED")
      else .put (bidPrefix ++ auctionName ++ str "." ++ bidderName ++ str ".")
        (marshalBid libc ⟨bidderName, value⟩))
  | .close auctionName =>
    if auctionBytesLen = 0 then some (.answer (str "AUCTION_ALREADY_EXISTS"))
    else (unmarshalAuction libc auctionBytes).map (fun theAuction =>
      if !theAuction.isOpen then .answer (str "AUCTION_ALREADY_CLOSED")
      else .put auctionName (marshalAuction libc { theAuction with isOpen := false }))
  | .eval _ =>
    if auctionBytesLen = 0 then some (.answer (str "AUCTION_ALREADY_EXISTS"))
    else (unmarshalAuction libc auctionBytes).map (fun theAuction =>
      if theAuction.isOpen then .answer (str "AUCTION_ALREADY_CLOSED") else .tally)

/-- The result of the loop over the bids; `none` is a fault. -/
def evalBids (uninit : ℤ) (values : WriteSet) : Option Bytes :=
  if values.isEmpty then some (str "NO_BIDS")
  else (values.toList.foldlM (considerBid libc) ⟨⟨[], uninit⟩, -1, false⟩).map
    (fun acc => if acc.draw then str "DRAW" else marshalBid libc acc.winner)

def Plan.program (uninit : ℤ) (auctionName : Bytes) : Plan → Chaincode Bytes
  | .answer result => pure result
  | .put key val => putState key val >>= fun _ => pure (str "OK")
  | .tally => getStateByPartialCompositeKey (bidPrefix ++ auctionName ++ str ".") ∅ >>= fun values =>
      Program.orFault (evalBids libc uninit values)

theorem orFault_evalBids (uninit : ℤ) (values : WriteSet) :
    (if values.isEmpty then pure (str "NO_BIDS")
      else do
        let acc ← Program.orFault (values.toList.foldlM (considerBid libc) ⟨⟨[], uninit⟩, -1, false⟩)
        if acc.draw then return str "DRAW" else return marshalBid libc acc.winner : Chaincode Bytes) =
      Program.orFault (evalBids libc uninit values) := by
  rw [evalBids]
  split_ifs
  · rfl
  · cases values.toList.foldlM (considerBid libc) ⟨⟨[], uninit⟩, -1, false⟩ with
    | none => rfl
    | some acc =>
      obtain ⟨winner, high, draw⟩ := acc
      cases draw <;> rfl

/-- Every operation reads the record, and then does what it has planned. -/
theorem Operation.program_eq (uninit : ℤ) (op : Operation) :
    op.program libc uninit = getState op.auctionName maxValueSize >>= fun r =>
      Program.orFault (op.plan libc r.1 r.2) >>= fun plan => plan.program libc uninit op.auctionName := by
  -- behind the read the two sides take the same branches
  have hread {name : Bytes} {f g : Bytes × ℕ → Chaincode Bytes} (h : ∀ r, f r = g r) :
      (getState name maxValueSize >>= f) = (getState name maxValueSize >>= g) := by rw [funext h]
  cases op with
  | create auctionName =>
    refine hread (fun r => ?_)
    dsimp only [Operation.plan]
    split_ifs
    · rfl
    · rfl
  | submit auctionName bidderName value =>
    refine hread (fun r => ?_)
    dsimp only [Operation.plan]
    split_ifs
    · rfl
    · cases unmarshalAuction libc r.1 with
      | none => rfl
      | some theAuction =>
        obtain ⟨name, isOpen⟩ := theAuction
        cases isOpen <;> rfl
  | close auctionName =>
    refine hread (fun r => ?_)
    dsimp only [Operation.plan]
    split_ifs
    · rfl
    · cases unmarshalAuction libc r.1 with
      | none => rfl
      | some theAuction =>
        obtain ⟨name, isOpen⟩ := theAuction
        cases isOpen <;> rfl
  | eval auctionName =>
    refine hread (fun r => ?_)
    dsimp only [Operation.plan]
    split_ifs
    · rfl
    · cases unmarshalAuction libc r.1 with
      | none => rfl
      | some theAuction =>
        obtain ⟨name, isOpen⟩ := theAuction
        cases isOpen with
        | true => rfl
        | false => exact congrArg (getStateByPartialCompositeKey _ ∅ >>= ·) (funext (orFault_evalBids libc uninit))

end

section
variable (libc)

/-- The plan for an auction that is not there, or that has a record with this flag. -/
def Operation.planFor : Option Bool → Operation → Plan
  | none, .create auctionName => .put auctionName (marshalAuction libc ⟨auctionName, true⟩)
  | none, _ => .answer (str "AUCTION_ALREADY_EXISTS")
  | some _, .create _ => .answer (str "AUCTION_ALREADY_EXISTS")
  | some true, .submit auctionName bidderName value =>
    .put (bidPrefix ++ auctionName ++ str "." ++ bidderName ++ str ".") (marshalBid libc ⟨bidderName, value⟩)
  | some true, .close auctionName => .put auctionName (marshalAuction libc ⟨auctionName, false⟩)
  | some true, .eval _ => .answer (str "AUCTION_ALREADY_CLOSED")
  | some false, .eval _ => .tally
  | some false, _ => .answer (str "AUCTION_ALREADY_CLOSED")

end

theorem Operation.plan_of_absent (op : Operation) (auctionBytes : Bytes) :
    op.plan libc auctionBytes 0 = some (op.planFor libc none) := by
  cases op <;> rfl

theorem Operation.plan_of_flag {op : Operation} {auctionBytes : Bytes} {len : ℕ} {isOpen : Bool} (hlen : len ≠ 0)
    (h : unmarshalAuction libc auctionBytes = some ⟨op.auctionName, isOpen⟩) :
    op.plan libc auctionBytes len = some (op.planFor libc (some isOpen)) := by
  cases op with
  | create auctionName => rw [plan, if_pos (Nat.pos_of_ne_zero hlen), planFor]
  | submit auctionName bidderName value =>
    rw [plan, if_neg hlen, h]
    cases isOpen <;> rfl
  | close auctionName =>
    rw [plan, if_neg hlen, h]
    cases isOpen <;> rfl
  | eval auctionName =>
    rw [plan, if_neg hlen, h]
    cases isOpen <;> rfl

/-- The calls of the operations on one auction. -/
inductive CallOf (auctionName : Bytes) : Call → Prop
  | getAuction : CallOf auctionName (.getState auctionName maxValueSize)
  | putAuction (val : Bytes) : CallOf auctionName (.putState auctionName val)
  | putBid {bidderName : Bytes} (hb : (0 : UInt8) ∉ bidderName) (val : Bytes) :
    CallOf auctionName (.putState (bidPrefix ++ auctionName ++ str "." ++ bidderName ++ str ".") val)
  | getBids : CallOf auctionName (.getStateByPartialCompositeKey (bidPrefix ++ auctionName ++ str ".") ∅)

/-- An operation that finds a record goes by the flag in it. -/
theorem plan_of_record {auctionBytes : Bytes} {len : ℕ} {f : Auction → Plan} {plan : Plan}
    (h : (if len = 0 then some (.answer (str "AUCTION_ALREADY_EXISTS"))
      else (unmarshalAuction libc auctionBytes).map f) = some plan) :
    len = 0 ∧ plan = .answer (str "AUCTION_ALREADY_EXISTS") ∨
      len ≠ 0 ∧ ∃ theAuction, unmarshalAuction libc auctionBytes = some theAuction ∧ f theAuction = plan := by
  split_ifs at h with hlen
  · exact Or.inl ⟨hlen, (Option.some.inj h).symm⟩
  · exact Or.inr ⟨hlen, Option.map_eq_some_iff.mp h⟩

/-- What an operation stores: a new record, or, for an auction that is open, a bid or the closed
record. -/
theorem Operation.plan_put {op : Operation} {auctionBytes : Bytes} {len : ℕ} {key val : Bytes}
    (h : op.plan libc auctionBytes len = some (.put key val)) :
    op = .create key ∧ len = 0 ∧ val = marshalAuction libc ⟨key, true⟩ ∨
      len ≠ 0 ∧ ∃ theAuction, unmarshalAuction libc auctionBytes = some theAuction ∧ theAuction.isOpen = true ∧
        ((∃ auctionName bidderName value, op = .submit auctionName bidderName value ∧
            key = bidPrefix ++ auctionName ++ str "." ++ bidderName ++ str "." ∧
            val = marshalBid libc ⟨bidderName, value⟩) ∨
          op = .close key ∧ val = marshalAuction libc { theAuction with isOpen := false }) := by
  cases op with
  | create auctionName =>
    have hplan := Option.some.inj h
    split_ifs at hplan with hlen
    cases hplan
    exact Or.inl ⟨rfl, Nat.eq_zero_of_not_pos hlen, rfl⟩
  | submit auctionName bidderName value =>
    rcases plan_of_record h with ⟨-, h⟩ | ⟨hlen, theAuction, hauction, h⟩
    · cases h
    · cases hopen : theAuction.isOpen with
      | false =>
        rw [hopen] at h
        cases h
      | true =>
        rw [hopen] at h
        cases h
        exact Or.inr ⟨hlen, theAuction, hauction, hopen, Or.inl ⟨_, _, _, rfl, rfl, rfl⟩⟩
  | close auctionName =>
    rcases plan_of_record h with ⟨-, h⟩ | ⟨hlen, theAuction, hauction, h⟩
    · cases h
    · cases hopen : theAuction.isOpen with
      | false =>
        rw [hopen] at h
        cases h
      | true =>
        rw [hopen] at h
        cases h
        exact Or.inr ⟨hlen, theAuction, hauction, hopen, Or.inr ⟨rfl, rfl⟩⟩
  | eval auctionName =>
    rcases plan_of_record h with ⟨-, h⟩ | ⟨hlen, theAuction, hauction, h⟩
    · cases h
    · cases hopen : theAuction.isOpen with
      | false =>
        rw [hopen] at h
        cases h
      | true =>
        rw [hopen] at h
        cases h

/-- The bids are looked at when the auction is closed. -/
theorem Operation.plan_tally {op : Operation} {auctionBytes : Bytes} {len : ℕ}
    (h : op.plan libc auctionBytes len = some .tally) :
    (∃ auctionName, op = .eval auctionName) ∧ len ≠ 0 ∧
      ∃ theAuction, unmarshalAuction libc auctionBytes = some theAuction ∧ theAuction.isOpen = false := by
  cases op with
  | create auctionName =>
    have hplan := Option.some.inj h
    split_ifs at hplan
  | submit auctionName bidderName value =>
    rcases plan_of_record h with ⟨-, h⟩ | ⟨-, theAuction, -, h⟩
    · cases h
    · split_ifs at h
  | close auctionName =>
    rcases plan_of_record h with ⟨-, h⟩ | ⟨-, theAuction, -, h⟩
    · cases h
    · split_ifs at h
  | eval auctionName =>
    rcases plan_of_record h with ⟨-, h⟩ | ⟨hlen, theAuction, hauction, h⟩
    · cases h
    · split_ifs at h with hopen
      exact ⟨⟨auctionName, rfl⟩, hlen, theAuction, hauction, Bool.eq_false_iff.mpr hopen⟩

/-- Without a put or a look at the bids the answer is a refusal. -/
theorem Operation.plan_answer {op : Operation} {auctionBytes : Bytes} {len : ℕ} {result : Bytes}
    (h : op.plan libc auctionBytes len = some (.answer result)) :
    result = str "AUCTION_ALREADY_EXISTS" ∨ result = str "AUCTION_ALREADY_CLOSED" := by
  have hrecord {f : Auction → Plan}
      (hf : ∀ theAuction, f theAuction = .answer result → result = str "AUCTION_ALREADY_CLOSED")
      (h : (if len = 0 then some (.answer (str "AUCTION_ALREADY_EXISTS"))
        else (unmarshalAuction libc auctionBytes).map f) = some (.answer result)) :
      result = str "AUCTION_ALREADY_EXISTS" ∨ result = str "AUCTION_ALREADY_CLOSED" := by
    rcases plan_of_record h with ⟨-, h⟩ | ⟨-, theAuction, -, h⟩
    · exact Or.inl (Plan.answer.inj h)
    · exact Or.inr (hf theAuction h)
  cases op with
  | create auctionName =>
    have hplan := Option.some.inj h
    split_ifs at hplan
    exact Or.inl (Plan.answer.inj hplan).symm
  | submit auctionName bidderName value =>
    refine hrecord (fun theAuction hf => ?_) h
    split_ifs at hf
    exact (Plan.answer.inj hf).symm
  | close auctionName =>
    refine hrecord (fun theAuction hf => ?_) h
    split_ifs at hf
    exact (Plan.answer.inj hf).symm
  | eval auctionName =>
    refine hrecord (fun theAuction hf => ?_) h
    split_ifs at hf
    exact (Plan.answer.inj hf).symm

theorem Operation.plan_put_callOf {op : Operation} {auctionBytes : Bytes} {len : ℕ} {key val : Bytes}
    (h : op.plan libc auctionBytes len = some (.put key val)) (hnul : ∀ w ∈ op.names, (0 : UInt8) ∉ w) :
    CallOf op.auctionName (.putState key val) := by
  rcases op.plan_put h with ⟨rfl, -, -⟩ | ⟨-, theAuction, -, -, ⟨_, bidderName, _, rfl, rfl, -⟩ | ⟨rfl, -⟩⟩
  · exact .putAuction val
  · exact .putBid (hnul bidderName (List.mem_cons_of_mem _ List.mem_cons_self)) val
  · exact .putAuction val

theorem Operation.within (libc : Libc) (uninit : ℤ) {op : Operation} (hnul : ∀ w ∈ op.names, (0 : UInt8) ∉ w) :
    (op.program libc uninit).Within (CallOf op.auctionName) := by
  rw [op.program_eq]
  refine Program.within_bind (Program.within_request .getAuction) (fun r => ?_)
  cases hplan : op.plan libc r.1 r.2 with
  | none => trivial
  | some plan =>
    rw [Program.orFault_some_bind]
    cases plan with
    | answer result => trivial
    | put key val => exact Program.within_bind (Program.within_request (op.plan_put_callOf hplan hnul)) (fun _ => trivial)
    | tally => exact Program.within_bind (Program.within_request .getBids) (fun _ => Program.within_orFault _)

theorem within_respond {P : Call → Prop} (maxResponseLen : ℕ) (result : Bytes) :
    (respond maxResponseLen result).Within P := by
  rw [respond]
  split_ifs
  · trivial
  · trivial

/-- `invoke` makes only calls of the auction that it is told. -/
theorem auctionInvoke_within {op : Operation} (uninit : ℤ) (maxResponseLen : ℕ)
    (h : readOperation libc args = some op) :
    (auctionInvoke libc uninit args maxResponseLen).Within (CallOf op.auctionName) := by
  rw [auctionInvoke_eq uninit maxResponseLen h]
  exact Program.within_bind (op.within libc uninit (readOperation_no_nul h)) (within_respond maxResponseLen)

end

section
variable {η τ σ : Type} (E : Enclave η τ σ)

/-- The text that reaches the chaincode: the arguments as they are, or, with a key of the client,
what they decrypt to. -/
def clearArgs (args pk : Bytes) : Option Bytes :=
  if (cstr pk).length = 0 then some (cstr args)
  else
    let pkBytes := base64Decode (cstr pk) ++ [0]
    if pkBytes.length < 64 then none
    else
      match E.computeSharedDhkey ((pkBytes.take 32).reverse ++ ((pkBytes.drop 32).take 32).reverse) with
      | none => none
      | some sharedDhkey =>
        let cipher := base64Decode (cstr args)
        let neededSize := argsNeededSize cipher.length
        if plainOverflows E neededSize then none
        else
          match E.gcm.decrypt (E.deriveKey sharedDhkey.reverse) (cipher.take 12) ((cipher.drop 12).take 16)
            ((cipher.drop 28).take neededSize.toNat) with
          | (false, _) => none
          | (true, plain) => some (cstr plain)

/-- The chaincode is called with the clear text, or it is not called. -/
theorem invokeProgram_cases (invoke : ChaincodeEntry) (args pk : Bytes) (responseLenIn : ℕ) :
    (∃ text, clearArgs E args pk = some text ∧
        invokeProgram E invoke args pk responseLenIn = invoke text responseLenIn) ∨
      clearArgs E args pk = none ∧
        (invokeProgram E invoke args pk responseLenIn = .fault ∨
          invokeProgram E invoke args pk responseLenIn = .done none) := by
  rw [clearArgs, invokeProgram]
  by_cases hpk : (cstr pk).length = 0
  · rw [if_pos hpk, if_pos hpk]
    exact Or.inl ⟨cstr args, rfl, rfl⟩
  rw [if_neg hpk, if_neg hpk, invokeEnc]
  dsimp only
  by_cases hshort : (base64Decode (cstr pk) ++ [0]).length < 64
  · rw [if_pos hshort, if_pos hshort]
    exact Or.inr ⟨rfl, Or.inl rfl⟩
  rw [if_neg hshort, if_neg hshort]
  cases E.computeSharedDhkey (((base64Decode (cstr pk) ++ [0]).take 32).reverse ++
      (((base64Decode (cstr pk) ++ [0]).drop 32).take 32).reverse) with
  | none => exact Or.inr ⟨rfl, Or.inr rfl⟩
  | some sharedDhkey =>
    dsimp only
    by_cases hcipher : plainOverflows E (argsNeededSize (base64Decode (cstr args)).length) = true
    · rw [if_pos hcipher, if_pos hcipher]
      exact Or.inr ⟨rfl, Or.inl rfl⟩
    rw [if_neg hcipher, if_neg hcipher]
    rcases E.gcm.decrypt (E.deriveKey sharedDhkey.reverse) ((base64Decode (cstr args)).take 12)
      (((base64Decode (cstr args)).drop 12).take 16)
      (((base64Decode (cstr args)).drop 28).take (argsNeededSize (base64Decode (cstr args)).length).toNat) with ⟨ok, plain⟩
    cases ok with
    | false => exact Or.inr ⟨rfl, Or.inr rfl⟩
    | true => exact Or.inl ⟨_, rfl, rfl⟩

/-- The operation that is asked for with these arguments. -/
def invokedOperation (args pk : Bytes) : Option Operation :=
  (clearArgs E args pk).bind (readOperation E.libc)

/-- An invocation of the auction runs its operation, or makes no call at all. -/
theorem auctionProgram_cases (uninit : ℤ) (args pk : Bytes) (responseLenIn : ℕ) :
    (∃ text op, clearArgs E args pk = some text ∧ readOperation E.libc text = some op ∧
        invokedOperation E args pk = some op ∧
        invokeProgram E (auctionInvoke E.libc uninit) args pk responseLenIn =
          auctionInvoke E.libc uninit text responseLenIn) ∨
      invokedOperation E args pk = none ∧
        ∀ P, (invokeProgram E (auctionInvoke E.libc uninit) args pk responseLenIn).Within P := by
  rw [invokedOperation]
  rcases invokeProgram_cases E (auctionInvoke E.libc uninit) args pk responseLenIn with
    ⟨text, hclear, hprogram⟩ | ⟨hclear, hprogram⟩
  · rw [hclear, hprogram, Option.bind_some]
    cases hop : readOperation E.libc text with
    | some op => exact Or.inl ⟨text, op, rfl, hop, rfl, rfl⟩
    | none =>
      refine Or.inr ⟨rfl, fun P => ?_⟩
      rcases auctionInvoke_none uninit responseLenIn hop with h | ⟨h, -⟩
      · rw [h]
        trivial
      · rw [h]
        trivial
  · rw [hclear]
    refine Or.inr ⟨rfl, fun P => ?_⟩
    rcases hprogram with h | h
    · rw [h]
      trivial
    · rw [h]
      trivial

end

end SecureChaincode
