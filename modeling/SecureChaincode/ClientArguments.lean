import SecureChaincode.AuctionRuns
import SecureChaincode.HonestReads

/-! What a client sends to the auction in clear text, and the stages it passes: the JSON parser,
the access to the arguments by their position, the number of a bid, and the names on their way to the
keys of Fabric. -/
namespace SecureChaincode

open Std

section
variable (F : KeyRule)

/-- The keys that Fabric puts something under. A composite key has a part, and all its parts are
valid. -/
def StorableKey (key : Bytes) : Prop :=
  key ≠ [] ∧ ∀ comp, (∀ w ∈ comp, sep ∉ w) → key = sgxKey comp → comp ≠ [] ∧ ∀ w ∈ comp, F.validAttribute w = true

variable {F}

/-- Of all keys a single dot makes the callbacks panic. -/
theorem goKey_eq_none_iff {key : Bytes} : goKey F key = none ↔ key = [sep] := by
  constructor
  · intro h
    rw [goKey] at h
    split_ifs at h with hkey
    obtain ⟨comp, hdots, rfl⟩ := isSGXCompositeKey_iff.mp hkey
    by_cases hne : comp = []
    · rw [hne]
      rfl
    · rw [transformToCompositeKey_sgxKey hne hdots] at h
      cases h
  · rintro rfl
    rfl

theorem storableKey_sgxKey {comp : List Bytes} (hdots : ∀ w ∈ comp, sep ∉ w) :
    StorableKey F (sgxKey comp) ↔ comp ≠ [] ∧ ∀ w ∈ comp, F.validAttribute w = true := by
  constructor
  · intro h
    exact h.2 comp hdots rfl
  · intro h
    refine ⟨List.cons_ne_nil _ _, fun comp' hdots' heq => ?_⟩
    rw [← sgxKey_injective_of_no_sep hdots hdots' heq]
    exact h

/-- `put_state` goes through for exactly these keys. -/
theorem storableKey_iff {key : Bytes} : StorableKey F key ↔ ∃ keyStr, goKey F key = some keyStr ∧ keyStr ≠ [] := by
  by_cases hkey : isSGXCompositeKey key = true
  · rw [goKey, if_pos hkey]
    obtain ⟨comp, hdots, rfl⟩ := isSGXCompositeKey_iff.mp hkey
    rw [storableKey_sgxKey hdots]
    by_cases hne : comp = []
    · subst hne
      refine iff_of_false (fun h => h.1 rfl) ?_
      rintro ⟨_, h, -⟩
      cases h
    · rw [transformToCompositeKey_sgxKey hne hdots, ← List.all_eq_true]
      split_ifs with hvalid
      · exact iff_of_true ⟨hne, hvalid⟩ ⟨_, rfl, List.cons_ne_nil _ _⟩
      · -- the error of Fabric leaves the empty key
        refine iff_of_false (fun h => hvalid h.2) ?_
        rintro ⟨_, h, hkeyStr⟩
        exact hkeyStr (Option.some.inj h).symm
  · rw [goKey, if_neg hkey]
    constructor
    · intro h
      exact ⟨key, rfl, h.1⟩
    · rintro ⟨keyStr, h, hne⟩
      refine ⟨fun hnil => hne (Option.some.inj h ▸ hnil), fun comp hdots heq => ?_⟩
      exact absurd (isSGXCompositeKey_iff.mpr ⟨comp, hdots, heq⟩) hkey

theorem exists_goRange_iff {key : Bytes} (hkey : isSGXCompositeKey key = true) (worldState : Kvs) :
    (∃ items, goRange F worldState key = some items) ↔ StorableKey F key := by
  obtain ⟨comp, hdots, rfl⟩ := isSGXCompositeKey_iff.mp hkey
  rw [storableKey_sgxKey hdots, goRange, splitSGXCompositeKey_sgxKey hdots]
  cases comp with
  | nil =>
    refine iff_of_false ?_ (fun h => h.1 rfl)
    rintro ⟨_, h⟩
    cases h
  | cons objectType attributes =>
    simp only [createCompositeKey]
    rw [← List.all_eq_true]
    split_ifs with hvalid
    · exact iff_of_true ⟨_, rfl⟩ ⟨List.cons_ne_nil _ _, hvalid⟩
    · refine iff_of_false ?_ (fun h => hvalid h.2)
      rintro ⟨_, h⟩
      cases h

end

/-! The arguments. -/

section
variable (libc : Libc)

/-- Arguments that are all there: an array of strings, two of them, or four for a bid, where the last
one begins with a number. -/
structure ReadableArgs (text : Bytes) (argss : List Bytes) : Prop where
  parsed : jsonParseString libc (text ++ [0]) = .ok (.array (argss.map .string))
  length : 2 ≤ argss.length
  bid : argss[0]? = some (str "submit") → ∃ valueText value, argss[3]? = some valueText ∧ stoi valueText = some value

variable {libc} {text : Bytes}

theorem mapM_getString_iff {items : List Json} {argss : List Bytes} :
    items.mapM (fun a => Json.getString (some a)) = some argss ↔ items = argss.map .string := by
  induction items generalizing argss with
  | nil =>
    cases argss with
    | nil => simp
    | cons s argss => simp
  | cons a items ih =>
    rw [List.mapM_cons]
    cases a with
    | string s =>
      have hhead : Json.getString (some (.string s)) = some s := rfl
      simp only [hhead, Option.bind_eq_bind, Option.bind_some, Option.bind_eq_some_iff, ih]
      constructor
      · rintro ⟨rest, hitems, h⟩
        rw [← Option.some.inj h, hitems]
        rfl
      · intro h
        obtain ⟨s', rest, rfl, hs, hrest⟩ := List.map_eq_cons_iff.mp h.symm
        exact ⟨rest, hrest.symm, by rw [Json.string.inj hs]; rfl⟩
    | _ =>
      constructor
      · intro h
        cases h
      · intro h
        obtain ⟨s', rest, -, hs, -⟩ := List.map_eq_cons_iff.mp h.symm
        cases hs

/-- What is no array gives no arguments. -/
theorem unmarshalArgs_cons_iff (htext : (0 : UInt8) ∉ text) {argss : List Bytes} (hne : argss ≠ []) :
    unmarshalArgs libc text = some argss ↔ jsonParseString libc (text ++ [0]) = .ok (.array (argss.map .string)) := by
  rw [unmarshalArgs, cstr_eq_self htext]
  cases hparse : jsonParseString libc (text ++ [0]) with
  | error e =>
    cases e with
    | null =>
      refine iff_of_false (fun h => hne (Option.some.inj h).symm) ?_
      intro h
      cases h
    | fault =>
      refine iff_of_false ?_ ?_
      · intro h
        cases h
      · intro h
        cases h
  | ok v =>
    cases v with
    | array items =>
      rw [Except.ok.injEq, Json.array.injEq]
      exact mapM_getString_iff
    | _ =>
      refine iff_of_false (fun h => hne (Option.some.inj h).symm) ?_
      intro h
      cases h

theorem ReadableArgs.unmarshalArgs {argss : List Bytes} (h : ReadableArgs libc text argss) (htext : (0 : UInt8) ∉ text) :
    unmarshalArgs libc text = some argss :=
  (unmarshalArgs_cons_iff htext (List.ne_nil_of_length_pos (Nat.lt_of_lt_of_le Nat.zero_lt_two h.length))).mpr h.parsed

/-- With readable arguments there is an operation, or the function is not known. -/
theorem ReadableArgs.cases {argss : List Bytes} (h : ReadableArgs libc text argss) (htext : (0 : UInt8) ∉ text)
    (uninit : ℤ) (maxResponseLen : ℕ) :
    (∃ op, readOperation libc text = some op) ∨ auctionInvoke libc uninit text maxResponseLen = .done (some []) := by
  have hargs := h.unmarshalArgs htext
  match argss, h, hargs with
  | functionName :: auctionName :: rest, h, hargs =>
    rw [readOperation, auctionInvoke, hargs]
    change (∃ op, (if functionName = str "create" then _ else _) = some op) ∨ (if functionName = str "create" then _ else _) = _
    split_ifs with hcreate hsubmit hclose heval
    · exact Or.inl ⟨_, rfl⟩
    · obtain ⟨valueText, value, hget, hvalue⟩ := h.bid (congrArg some hsubmit)
      have hrest : rest[1]? = some valueText := hget
      obtain ⟨bidderName, hbidder⟩ : ∃ bidderName, rest[0]? = some bidderName := by
        have hlen := (List.getElem?_eq_some_iff.mp hrest).1
        exact ⟨rest[0], List.getElem?_eq_getElem _⟩
      refine Or.inl ⟨.submit auctionName bidderName value, ?_⟩
      rw [hbidder, hrest]
      change (stoi valueText >>= fun value => some (Operation.submit auctionName bidderName value)) = _
      rw [hvalue]
      rfl
    · exact Or.inl ⟨_, rfl⟩
    · exact Or.inl ⟨_, rfl⟩
    · exact Or.inr rfl

theorem readable_of_operation {op : Operation} (h : readOperation libc text = some op) (htext : (0 : UInt8) ∉ text) :
    ∃ argss, ReadableArgs libc text argss := by
  obtain ⟨argss, hargs, h⟩ := Option.bind_eq_some_iff.mp h
  match argss, hargs, h with
  | functionName :: auctionName :: rest, hargs, h =>
    refine ⟨_, (unmarshalArgs_cons_iff htext (List.cons_ne_nil _ _)).mp hargs, Nat.le_add_left _ _, ?_⟩
    intro hfunction
    have hsubmit : functionName = str "submit" := Option.some.inj hfunction
    subst hsubmit
    obtain ⟨bidderName, -, h⟩ := Option.bind_eq_some_iff.mp h
    obtain ⟨value, hvalue, -⟩ := Option.bind_eq_some_iff.mp h
    obtain ⟨valueText, hget, hstoi⟩ := Option.bind_eq_some_iff.mp hvalue
    exact ⟨valueText, value, hget, hstoi⟩

/-- `invoke` gets past its arguments exactly if they are readable. -/
theorem fault_or_readable (h : readOperation libc text = none) (htext : (0 : UInt8) ∉ text) (uninit : ℤ)
    (maxResponseLen : ℕ) :
    auctionInvoke libc uninit text maxResponseLen = .fault ∨ ∃ argss, ReadableArgs libc text argss := by
  rcases auctionInvoke_none uninit maxResponseLen h with hfault | ⟨-, functionName, rest, hargs, hunknown⟩
  · exact Or.inl hfault
  · cases rest with
    | nil =>
      left
      rw [auctionInvoke, hargs]
      rfl
    | cons auctionName rest =>
      refine Or.inr ⟨_, (unmarshalArgs_cons_iff htext (List.cons_ne_nil _ _)).mp hargs, Nat.le_add_left _ _, ?_⟩
      intro hfunction
      have hsubmit : functionName = str "submit" := Option.some.inj hfunction
      subst hsubmit
      exact absurd (List.mem_cons_of_mem _ List.mem_cons_self) hunknown

end

/-! The state. -/

section
variable {η τ σ : Type} (E : Enclave η τ σ) (F : KeyRule) (worldState : Kvs) (verifyTag : Bytes → Bool → τ) (uninit : ℤ)

/-- What `get_state` delivers of the value under a key of Fabric; `none` if it does not fit, or is no
ciphertext. -/
def storedRecord (keyStr : Bytes) : Option (Bytes × ℕ) :=
  let data := (worldState[keyStr]?.map Prod.fst).getD []
  if maxValueSize.toNat < data.length then none
  else readValue E maxValueSize ⟨data, data.length.toUInt32, verifyTag keyStr false, []⟩

/-- The answer to `auction_eval` from the bids in the state. -/
def storedResult (auctionName : Bytes) : Option Bytes := do
  let reply ← (goHost F worldState verifyTag).getStateByPartialCompositeKey [] (bidPrefix ++ auctionName ++ str ".")
  let (_, plain) ← readValues E ∅ reply
  evalBids E.libc uninit plain

/-- The keys of a plan are stored under, and the bids can be read. -/
def Plan.Handled (auctionName : Bytes) : Plan → Prop
  | .answer _ => True
  | .put key _ => StorableKey F key
  | .tally => StorableKey F (bidPrefix ++ auctionName ++ str ".") ∧
      ∃ result, storedResult E F worldState verifyTag uninit auctionName = some result

/-- The name of the auction has a key, the record under it can be read, and what the operation does
after that is handled. -/
def Operation.Handled (op : Operation) : Prop :=
  op.auctionName ≠ [sep] ∧ ∀ keyStr, goKey F op.auctionName = some keyStr →
    ∃ record plan, storedRecord E worldState verifyTag keyStr = some record ∧
      op.plan E.libc record.1 record.2 = some plan ∧ plan.Handled E F worldState verifyTag uninit op.auctionName

variable {E F worldState verifyTag uninit}

theorem ends_putState_iff {key : Bytes} (hkey : (0 : UInt8) ∉ key) (val : Bytes) (s : Session τ) :
    (putState key val).Ends (shimStep E (goHost F worldState verifyTag)) s ↔ StorableKey F key := by
  rw [storableKey_iff, ← goHost_putState F worldState verifyTag s.trace key (base64Encode (encryptState E s.trace.length val)),
    Program.Ends, putState, Program.run_request, shimStep, cstr_eq_self hkey]
  dsimp only
  split_ifs with hput
  · exact iff_of_true ⟨_, _, rfl⟩ hput
  · refine iff_of_false ?_ hput
    rintro ⟨_, _, h⟩
    cases h

theorem isSGXCompositeKey_bids (auctionName : Bytes) : isSGXCompositeKey (bidPrefix ++ auctionName ++ str ".") = true := by
  have hlast : (bidPrefix ++ auctionName ++ str ".").getLast? = some sep := by
    rw [List.getLast?_append]
    rfl
  rw [isSGXCompositeKey, hlast]
  rfl

theorem zero_notMem_bids {auctionName : Bytes} (h : (0 : UInt8) ∉ auctionName) :
    (0 : UInt8) ∉ bidPrefix ++ auctionName ++ str "." := by
  rw [List.mem_append, List.mem_append]
  rintro ((hmem | hmem) | hmem)
  · exact absurd hmem (by decide)
  · exact h hmem
  · exact absurd hmem (by decide)

theorem Operation.zero_notMem_put {op : Operation} (hnul : ∀ w ∈ op.names, (0 : UInt8) ∉ w) {libc : Libc}
    {auctionBytes key val : Bytes} {len : ℕ} (h : op.plan libc auctionBytes len = some (.put key val)) :
    (0 : UInt8) ∉ key := by
  rcases op.plan_put h with ⟨rfl, -, -⟩ | ⟨-, theAuction, -, -, ⟨auctionName, bidderName, _, rfl, rfl, -⟩ | ⟨rfl, -⟩⟩
  · exact hnul key List.mem_cons_self
  · rw [List.mem_append, List.mem_append]
    rintro ((hmem | hmem) | hmem)
    · exact zero_notMem_bids (hnul auctionName List.mem_cons_self) hmem
    · exact hnul bidderName (List.mem_cons_of_mem _ List.mem_cons_self) hmem
    · exact absurd hmem (by decide)
  · exact hnul key List.mem_cons_self

/-- A plan is carried out to its end exactly if it is handled. -/
theorem Plan.ends_iff {auctionName : Bytes} (hname : (0 : UInt8) ∉ auctionName) {plan : Plan}
    (hput : ∀ key val, plan = .put key val → (0 : UInt8) ∉ key) (u : Session τ) :
    (plan.program E.libc uninit auctionName).Ends (shimStep E (goHost F worldState verifyTag)) u ↔
      plan.Handled E F worldState verifyTag uninit auctionName := by
  cases plan with
  | answer result => exact ⟨fun _ => trivial, fun _ => Program.ends_pure result u⟩
  | put key val =>
    have hends : (putState key val).Ends (shimStep E (goHost F worldState verifyTag)) u ↔ StorableKey F key :=
      ends_putState_iff (hput key val rfl) val u
    rw [Plan.Handled, ← hends]
    refine Program.ends_bind_iff.trans ⟨?_, ?_⟩
    · rintro ⟨a, t, h, -⟩
      exact ⟨a, t, h⟩
    · rintro ⟨a, t, h⟩
      exact ⟨a, t, h, Program.ends_pure _ t⟩
  | tally =>
    have hcstr := cstr_eq_self (zero_notMem_bids hname)
    rw [Plan.Handled, Plan.program, Program.ends_bind_iff]
    constructor
    · rintro ⟨plain, t, hrun, hends⟩
      obtain ⟨reply, received, hreply, hread, -⟩ := getStateByPartialCompositeKey_cases E _ hrun
      obtain ⟨result, hresult⟩ := Program.ends_orFault_iff.mp hends
      rw [hcstr] at hreply
      refine ⟨(exists_goRange_iff (isSGXCompositeKey_bids auctionName) worldState).mp ?_, result, ?_⟩
      · obtain ⟨items, hitems, -⟩ := Option.bind_eq_some_iff.mp hreply
        exact ⟨items, hitems⟩
      · have hreply' : (goHost F worldState verifyTag).getStateByPartialCompositeKey []
            (bidPrefix ++ auctionName ++ str ".") = some reply := hreply
        rw [storedResult, hreply']
        change (readValues E ∅ reply >>= fun x => evalBids E.libc uninit x.2) = _
        rw [hread]
        exact hresult
    · rintro ⟨-, result, hresult⟩
      obtain ⟨reply, hreply, hresult⟩ := Option.bind_eq_some_iff.mp hresult
      obtain ⟨⟨received, plain⟩, hread, hresult⟩ := Option.bind_eq_some_iff.mp hresult
      have hreply' : (goHost F worldState verifyTag).getStateByPartialCompositeKey u.trace
          (cstr (bidPrefix ++ auctionName ++ str ".")) = some reply := by
        rw [hcstr]
        exact hreply
      exact ⟨plain, _, run_getStateByPartialCompositeKey E _ hreply' hread, Program.ends_orFault_iff.mpr ⟨result, hresult⟩⟩

theorem getState_storedRecord {name keyStr : Bytes} (hkey : goKey F name = some keyStr) (trace : List (Event τ)) :
    ((goHost F worldState verifyTag).getState trace name maxValueSize >>= readValue E maxValueSize) =
      storedRecord E worldState verifyTag keyStr := by
  rw [goHost_getState F worldState verifyTag trace maxValueSize hkey, storedRecord]
  dsimp only
  split_ifs with hlen
  · rfl
  · rfl

/-- An operation runs to its end exactly if it is handled. -/
theorem Operation.ends_iff {op : Operation} (hnul : ∀ w ∈ op.names, (0 : UInt8) ∉ w) (s : Session τ) :
    (op.program E.libc uninit).Ends (shimStep E (goHost F worldState verifyTag)) s ↔
      op.Handled E F worldState verifyTag uninit := by
  have hname := hnul _ op.auctionName_mem
  have hput {record : Bytes × ℕ} {plan : Plan} (hplan : op.plan E.libc record.1 record.2 = some plan) :
      ∀ key val, plan = .put key val → (0 : UInt8) ∉ key := by
    rintro key val rfl
    exact op.zero_notMem_put hnul hplan
  rw [op.program_eq, Program.ends_bind_iff, Operation.Handled]
  constructor
  · rintro ⟨record, u, hget, hends⟩
    obtain ⟨reply, hreply, hread, -⟩ := getState_cases E _ hget
    obtain ⟨plan, hplan, hends⟩ := Program.ends_orFault_bind_iff.mp hends
    rw [cstr_eq_self hname] at hreply
    refine ⟨?_, fun keyStr hkey => ⟨record, plan, ?_, hplan, (Plan.ends_iff hname (hput hplan) u).mp hends⟩⟩
    · rintro hdot
      obtain ⟨keyStr, hkey, -⟩ := Option.bind_eq_some_iff.mp hreply
      rw [goKey_eq_none_iff.mpr hdot] at hkey
      cases hkey
    · rw [← getState_storedRecord hkey s.trace, hreply]
      exact hread
  · rintro ⟨hdot, hrecord⟩
    obtain ⟨keyStr, hkey⟩ := Option.ne_none_iff_exists'.mp (mt goKey_eq_none_iff.mp hdot)
    obtain ⟨record, plan, hstored, hplan, hhandled⟩ := hrecord keyStr hkey
    rw [← getState_storedRecord hkey s.trace] at hstored
    obtain ⟨reply, hreply, hread⟩ := Option.bind_eq_some_iff.mp hstored
    rw [← cstr_eq_self hname] at hreply
    refine ⟨record, _, run_getState E _ hreply hread, ?_⟩
    rw [hplan]
    exact (Plan.ends_iff hname (hput hplan) _).mpr hhandled

theorem ends_respond {step : Session τ → (c : Call) → Option c.Answer × Session τ} (maxResponseLen : ℕ) (result : Bytes)
    (s : Session τ) : (respond maxResponseLen result).Ends step s := by
  rw [respond]
  split_ifs
  · exact Program.ends_pure none s
  · exact Program.ends_pure (some result) s

theorem ecallInvoke_ne_none_iff {invoke : ChaincodeEntry} {host : Host τ} {args : Bytes} {responseLenIn : ℕ} :
    ecallInvoke E invoke host args [] responseLenIn ≠ none ↔
      (invoke (cstr args) responseLenIn).Ends (shimStep E host) freshSession := by
  have hrun : invokeRun E invoke host args [] responseLenIn =
      (invoke (cstr args) responseLenIn).run (shimStep E host) freshSession := rfl
  rw [ecallInvoke, hrun, Program.Ends]
  cases (invoke (cstr args) responseLenIn).run (shimStep E host) freshSession with
  | mk outcome t =>
    cases outcome with
    | none =>
      refine iff_of_false (fun h => h rfl) ?_
      rintro ⟨_, _, h⟩
      cases h
    | some result =>
      cases result with
      | none => exact iff_of_true (Option.some_ne_none _) ⟨_, _, rfl⟩
      | some response => exact iff_of_true (Option.some_ne_none _) ⟨_, _, rfl⟩

theorem auctionInvoke_ends_iff {text : Bytes} (htext : (0 : UInt8) ∉ text) (maxResponseLen : ℕ) :
    (auctionInvoke E.libc uninit text maxResponseLen).Ends (shimStep E (goHost F worldState verifyTag)) freshSession ↔
      (∃ argss, ReadableArgs E.libc text argss) ∧
        ∀ op, readOperation E.libc text = some op → op.Handled E F worldState verifyTag uninit := by
  cases hop : readOperation E.libc text with
  | none =>
    constructor
    · intro hends
      refine ⟨?_, ?_⟩
      swap
      · intro op h
        cases h
      rcases fault_or_readable hop htext uninit maxResponseLen with hfault | hreadable
      · obtain ⟨x, t, h⟩ := hends
        rw [hfault] at h
        cases h
      · exact hreadable
    · rintro ⟨⟨argss, hreadable⟩, -⟩
      rcases hreadable.cases htext uninit maxResponseLen with ⟨op, hsome⟩ | hdone
      · rw [hop] at hsome
        cases hsome
      · rw [hdone]
        exact Program.ends_pure _ _
  | some op =>
    rw [auctionInvoke_eq uninit maxResponseLen hop, Program.ends_bind_iff]
    have hends := @Operation.ends_iff _ _ _ E F worldState verifyTag uninit op (readOperation_no_nul hop) freshSession
    constructor
    · rintro ⟨result, u, hrun, -⟩
      refine ⟨readable_of_operation hop htext, ?_⟩
      rintro op' h
      cases h
      exact hends.mp ⟨result, u, hrun⟩
    · rintro ⟨-, hhandled⟩
      obtain ⟨result, u, hrun⟩ := hends.mpr (hhandled op rfl)
      exact ⟨result, u, hrun, ends_respond maxResponseLen result u⟩

theorem storedRecord_of_absent {keyStr : Bytes} (h : worldState[keyStr]? = none) :
    ∃ buffer, storedRecord E worldState verifyTag keyStr = some (buffer, 0) := by
  rw [storedRecord, h]
  exact ⟨_, rfl⟩

/-- Where there is no auction yet, an operation is handled if its name is one. -/
theorem Operation.handled_iff_of_absent {op : Operation}
    (habsent : ∀ keyStr, goKey F op.auctionName = some keyStr → worldState[keyStr]? = none) :
    op.Handled E F worldState verifyTag uninit ↔
      op.auctionName ≠ [sep] ∧ ∀ auctionName, op = .create auctionName → StorableKey F auctionName := by
  rw [Operation.Handled]
  apply and_congr_right
  intro hdot
  obtain ⟨keyStr, hkey⟩ := Option.ne_none_iff_exists'.mp (mt goKey_eq_none_iff.mp hdot)
  obtain ⟨buffer, hstored⟩ := @storedRecord_of_absent _ _ _ E worldState verifyTag _ (habsent keyStr hkey)
  have hplan := @Operation.plan_of_absent E.libc op buffer
  constructor
  · rintro h auctionName rfl
    obtain ⟨record, plan, hrecord, hsome, hhandled⟩ := h keyStr hkey
    cases hstored.symm.trans hrecord
    cases hplan.symm.trans hsome
    exact hhandled
  · intro h keyStr' hkey'
    cases hkey.symm.trans hkey'
    refine ⟨(buffer, 0), _, hstored, hplan, ?_⟩
    cases op with
    | create auctionName => exact h auctionName rfl
    | submit auctionName bidderName value => trivial
    | close auctionName => trivial
    | eval auctionName => trivial

/-- On a fresh ledger only the arguments matter. -/
theorem fresh_ledger_ends_iff (args : Bytes) (responseLenIn : ℕ) :
    ecallInvoke E (auctionInvoke E.libc uninit) (goHost F ∅ verifyTag) args [] responseLenIn ≠ none ↔
      (∃ argss, ReadableArgs E.libc (cstr args) argss) ∧ ∀ op, readOperation E.libc (cstr args) = some op →
        op.auctionName ≠ [sep] ∧ ∀ auctionName, op = .create auctionName → StorableKey F auctionName := by
  rw [ecallInvoke_ne_none_iff, auctionInvoke_ends_iff (zero_notMem_cstr args)]
  apply and_congr_right
  intro _
  apply forall₂_congr
  intro op _
  exact Operation.handled_iff_of_absent fun keyStr _ => ExtTreeMap.getElem?_empty

end

/-- No array, no function, no name of an auction, a name that is no string, a bid without its value, a
value that is no number, and names that make no key. -/
def unhandledArgs : List Bytes :=
  [str "", str "\x7b\x7d", str "[]", str "[\"eval\"]", str "[\"close\",null]", str "[\"submit\",\"a\",\"b\"]",
    str "[\"submit\",\"a\",\"b\",\"x\"]", str "[\"eval\",\".\"]", str "[\"create\",\"\"]"]

end SecureChaincode
