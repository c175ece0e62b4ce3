import SecureChaincode.Operations
import SecureChaincode.SimulatedReads

/-! The ocalls of the auction chaincode, and the world states that its invocations lead to. -/
namespace SecureChaincode

open Std

/-- The arguments of an auction invocation in clear text: a C string in which parson finds one of
the functions and the name of an auction, and the name of a bidder for a bid. -/
structure AuctionCall (libc : Libc) (args : Bytes) : Prop where
  no_nul : (0 : UInt8) ∉ args
  arguments : ∃ function name rest, unmarshalArgs libc args = some (function :: name :: rest) ∧
    function ∈ [str "create", str "submit", str "close", str "eval"] ∧ PlainWord name ∧
    ∀ bidder, function = str "submit" → rest[0]? = some bidder → PlainWord bidder

/-- The key of a bid. -/
def bidKey (name bidder : Bytes) : List Bytes := [str "somePrefix", name, bidder]

theorem sgxKey_bidKey (name bidder : Bytes) :
    sgxKey (bidKey name bidder) = bidPrefix ++ name ++ str "." ++ bidder ++ str "." := by
  simp [sgxKey, bidKey, delimited, bidPrefix, str, sep]

theorem sgxKey_bids (name : Bytes) : sgxKey [str "somePrefix", name] = bidPrefix ++ name ++ str "." := by
  simp [sgxKey, delimited, bidPrefix, str, sep]

theorem plainWord_somePrefix : PlainWord (str "somePrefix") :=
  ⟨by decide, by decide +kernel, by decide +kernel⟩

theorem plainWord_bidKey {name bidder : Bytes} (hn : PlainWord name) (hb : PlainWord bidder) :
    ∀ w ∈ bidKey name bidder, PlainWord w := by
  intro w hw
  simp only [bidKey, List.mem_cons, List.not_mem_nil, or_false] at hw
  rcases hw with rfl | rfl | rfl
  · exact plainWord_somePrefix
  · exact hn
  · exact hb

section
variable {η τ σ : Type} (E : Enclave η τ σ) (host : Host τ)

/-- The ocalls behind the first one, which reads the auction: nothing, a put or a range query. -/
inductive AuctionTail (name : Bytes) : List (Event τ) → Prop
  | none : AuctionTail name []
  | putAuction (val : Bytes) : AuctionTail name [.putState name (base64Encode (encryptState E 1 val))]
  | putBid {bidder : Bytes} (hb : PlainWord bidder) (val : Bytes) :
    AuctionTail name [.putState (sgxKey (bidKey name bidder)) (base64Encode (encryptState E 1 val))]
  | bids (reply : OcallReply τ) :
    AuctionTail name [.getStateByPartialCompositeKey (sgxKey [str "somePrefix", name]) ∅ reply]

/-- The ocalls of one invocation. -/
def AuctionTrace (name : Bytes) (trace : List (Event τ)) : Prop :=
  ∃ reply tail, trace = .getState name maxValueSize reply :: tail ∧ AuctionTail E name tail

variable {E host} {name : Bytes} {t : Session τ} {result : Bytes}

variable (E host) in
/-- What a plan does behind the ocalls `pre`: its result and its ocalls. -/
inductive Performed (uninit : ℤ) (name : Bytes) (pre : List (Event τ)) : Plan → Bytes → List (Event τ) → Prop
  | answer (result : Bytes) : Performed uninit name pre (.answer result) result []
  | put (key val : Bytes) :
    Performed uninit name pre (.put key val) (str "OK")
      [.putState (cstr key) (base64Encode (encryptState E pre.length val))]
  | tally {reply : OcallReply τ} {received plain : WriteSet} {result : Bytes}
    (hreply : host.getStateByPartialCompositeKey pre (cstr (bidPrefix ++ name ++ str ".")) = some reply)
    (hread : readValues E ∅ reply = some (received, plain)) (heval : evalBids E.libc uninit plain = some result) :
    Performed uninit name pre .tally result
      [.getStateByPartialCompositeKey (cstr (bidPrefix ++ name ++ str ".")) ∅ reply]

/-- The run of a plan that gets through. -/
theorem Plan.run_cases {uninit : ℤ} {plan : Plan} {u : Session τ}
    (h : (plan.program E.libc uninit name).run (shimStep E host) u = (some result, t)) :
    ∃ tail, Performed E host uninit name u.trace plan result tail ∧ t.trace = u.trace ++ tail := by
  cases plan with
  | answer r =>
    cases h
    exact ⟨[], .answer _, (List.append_nil _).symm⟩
  | put key val =>
    obtain ⟨a, v, hput, h⟩ := Program.run_bind_eq_some h
    cases h
    exact ⟨_, .put key val, trace_putState E host hput⟩
  | tally =>
    obtain ⟨values, v, hrange, h⟩ := Program.run_bind_eq_some h
    obtain ⟨reply, received, hreply, hread, htrace⟩ := getStateByPartialCompositeKey_cases E host hrange
    cases heval : evalBids E.libc uninit values with
    | none =>
      rw [heval] at h
      cases h
    | some r =>
      rw [heval] at h
      cases h
      exact ⟨_, .tally hreply hread heval, htrace⟩

/-- The run of an operation that gets through: it has read the record, and has done what follows
from the record. -/
theorem Operation.run_cases {op : Operation} {uninit : ℤ} (hnul : (0 : UInt8) ∉ op.auctionName)
    (h : (op.program E.libc uninit).run (shimStep E host) freshSession = (some result, t)) :
    ∃ reply auctionBytes len plan tail, host.getState [] op.auctionName maxValueSize = some reply ∧
      readValue E maxValueSize reply = some (auctionBytes, len) ∧
      op.plan E.libc auctionBytes len = some plan ∧
      Performed E host uninit op.auctionName [.getState op.auctionName maxValueSize reply] plan result tail ∧
      t.trace = .getState op.auctionName maxValueSize reply :: tail := by
  rw [op.program_eq] at h
  obtain ⟨⟨auctionBytes, len⟩, u, hget, h⟩ := Program.run_bind_eq_some h
  obtain ⟨plan, hplan, h⟩ := Program.run_orFault_bind_eq_some h
  obtain ⟨reply, hreply, hread, hu⟩ := getState_cases E host hget
  rw [cstr_eq_self hnul] at hreply hu
  have htrace : u.trace = [.getState op.auctionName maxValueSize reply] := hu
  obtain ⟨tail, hperformed, ht⟩ := plan.run_cases h
  rw [htrace] at hperformed ht
  exact ⟨reply, auctionBytes, len, plan, tail, hreply, hread, hplan, hperformed, ht⟩

theorem Operation.trace {op : Operation} {uninit : ℤ} (hplain : ∀ w ∈ op.names, PlainWord w)
    (h : (op.program E.libc uninit).run (shimStep E host) freshSession = (some result, t)) :
    AuctionTrace E op.auctionName t.trace := by
  have hn := hplain _ op.auctionName_mem
  obtain ⟨reply, auctionBytes, len, plan, tail, -, -, hplan, hperformed, htrace⟩ := op.run_cases hn.no_nul h
  refine ⟨reply, tail, htrace, ?_⟩
  cases hperformed with
  | answer => exact .none
  | put key val =>
    rcases op.plan_put hplan with ⟨rfl, -, -⟩ | ⟨-, theAuction, -, -, ⟨name, bidder, _, rfl, rfl, -⟩ | ⟨rfl, -⟩⟩
    · have hkey : (0 : UInt8) ∉ key := hn.no_nul
      rw [cstr_eq_self hkey]
      exact .putAuction val
    · have hname : PlainWord name := hn
      have hb := hplain bidder (List.mem_cons_of_mem _ List.mem_cons_self)
      rw [← sgxKey_bidKey, cstr_eq_self (plainText_sgxKey (plainWord_bidKey hname hb)).no_nul]
      exact .putBid hb val
    · have hkey : (0 : UInt8) ∉ key := hn.no_nul
      rw [cstr_eq_self hkey]
      exact .putAuction val
  | tally hreply hread heval =>
    have hwords : ∀ w ∈ [str "somePrefix", op.auctionName], PlainWord w :=
      List.forall_mem_cons.mpr ⟨plainWord_somePrefix, List.forall_mem_singleton.mpr hn⟩
    rw [← sgxKey_bids, cstr_eq_self (plainText_sgxKey hwords).no_nul]
    exact .bids _

variable {args : Bytes} {responseLenIn : ℕ} {uninit : ℤ} {response : Bytes}

/-- A response of an invocation is the result of its operation. -/
theorem auctionInvoke_run {op : Operation} (hop : readOperation E.libc args = some op)
    (h : (auctionInvoke E.libc uninit args responseLenIn).run (shimStep E host) freshSession =
      (some (some response), t)) :
    (op.program E.libc uninit).run (shimStep E host) freshSession = (some response, t) ∧
      response.length ≤ responseLenIn := by
  rw [auctionInvoke_eq uninit responseLenIn hop] at h
  obtain ⟨result, u, hresult, h⟩ := Program.run_bind_eq_some h
  rw [respond] at h
  split_ifs at h with hlen
  · cases h
  · cases h
    exact ⟨hresult, Nat.le_of_not_lt hlen⟩

/-- An invocation reads the auction, and then makes one put, one range query or neither. -/
theorem auctionInvoke_trace (hcall : AuctionCall E.libc args)
    (h : invokeRun E (auctionInvoke E.libc uninit) host args [] responseLenIn = (some (some response), t)) :
    ∃ name, PlainWord name ∧ AuctionTrace E name t.trace := by
  obtain ⟨function, name, rest, hargs, hfunction, hn, hbidder⟩ := hcall.arguments
  have hrun : (auctionInvoke E.libc uninit args responseLenIn).run (shimStep E host) freshSession =
      (some (some response), t) := by
    rw [invokeRun, cstr_eq_self hcall.no_nul] at h
    exact h
  cases hop : readOperation E.libc args with
  | none =>
    -- the function is one of the four, so an argument was missing
    rcases auctionInvoke_none uninit responseLenIn hop with hfault | ⟨-, function', rest', hargs', hunknown⟩
    · rw [hfault] at hrun
      cases hrun
    · rw [hargs] at hargs'
      cases hargs'
      exact absurd hfunction hunknown
  | some op =>
    obtain ⟨hname, hnames⟩ := readOperation_args hop hargs
    have hplain : ∀ w ∈ op.names, PlainWord w := by
      intro w hw
      rcases hnames w hw with rfl | ⟨hsubmit, hrest⟩
      · exact hn
      · exact hbidder w hsubmit hrest
    refine ⟨op.auctionName, hplain _ op.auctionName_mem, ?_⟩
    exact op.trace hplain (auctionInvoke_run hop hrun).1

end

section
variable {τ : Type} {F : KeyRule}

theorem isSGXCompositeKey_of_no_dot {k : Bytes} (h : sep ∉ k) : isSGXCompositeKey k = false := by
  rw [isSGXCompositeKey, Bool.and_eq_false_iff]
  left
  rw [beq_eq_false_iff_ne]
  exact fun hhead => h (List.mem_of_mem_head? hhead)

theorem goKey_of_no_dot {k : Bytes} (h : sep ∉ k) : goKey F k = some k := by
  rw [goKey, isSGXCompositeKey_of_no_dot h]
  rfl

theorem tidyKey_plain {name : Bytes} (hn : PlainWord name) : TidyKey name := by
  refine .simple hn.ne_nil (fun hhead => ?_) hn.no_dot
  exact hn.no_nul (List.mem_of_mem_head? hhead)

/-- A composite key that Fabric has taken is in Fabric's form. -/
theorem goKey_sgxKey {comp : List Bytes} {keyStr : Bytes} (hne : comp ≠ []) (hcomp : ∀ w ∈ comp, PlainWord w)
    (h : goKey F (sgxKey comp) = some keyStr) (hback : transformToSGX keyStr = sgxKey comp) :
    keyStr = fabricKey comp := by
  have hdots : ∀ w ∈ comp, sep ∉ w := fun w hw => (hcomp w hw).no_dot
  rw [goKey, if_pos (isSGXCompositeKey_iff.mpr ⟨comp, hdots, rfl⟩), transformToCompositeKey_sgxKey hne hdots] at h
  split_ifs at h with hall
  · exact (Option.some.inj h).symm
  · cases h
    cases hback

end

section
variable {η τ σ : Type} {E : Enclave η τ σ} {F : KeyRule} {name : Bytes} {trace : List (Event τ)}

theorem AuctionTrace.plainReads {worldState : Kvs} (htidy : TidyState worldState) (hn : PlainWord name)
    (h : AuctionTrace E name trace) : PlainReads F worldState trace := by
  obtain ⟨reply, tail, rfl, htail⟩ := h
  constructor
  · intro key maxValLen reply' hmem hc
    -- the only point read is the one of the auction
    have hkey : key = name := by cases htail <;> simp_all
    rw [hkey, isSGXCompositeKey_of_no_dot hn.no_dot] at hc
    cases hc
  · intro compKey values reply' items hmem hitems item hitem
    obtain ⟨comp, rfl⟩ := goRange_some F worldState hitems
    exact (htidy.jsonSafe.rangeItems comp _ (List.mem_map_of_mem hitem)).1

theorem AuctionTrace.ownMaps (h : AuctionTrace E name trace) : OwnMaps E trace := by
  obtain ⟨reply, tail, rfl, htail⟩ := h
  apply ownMaps_of_empty
  intro compKey values reply' hmem
  cases htail <;> simp_all

/-- The puts of an invocation: at most one. -/
theorem AuctionTrace.puts (hn : PlainWord name) (h : AuctionTrace E name trace) :
    trace.flatMap Event.writes = [] ∨
      ∃ key val, trace.flatMap Event.writes = [(key, base64Encode (encryptState E 1 val))] ∧
        (key = name ∨ ∃ comp, comp ≠ [] ∧ (∀ w ∈ comp, PlainWord w) ∧ key = sgxKey comp) := by
  obtain ⟨reply, tail, rfl, htail⟩ := h
  cases htail with
  | none => exact Or.inl rfl
  | putAuction val => exact Or.inr ⟨name, val, rfl, Or.inl rfl⟩
  | putBid hb val =>
    exact Or.inr ⟨_, val, rfl, Or.inr ⟨_, List.cons_ne_nil _ _, plainWord_bidKey hn hb, rfl⟩⟩
  | bids reply => exact Or.inl rfl

/-- The only point read is the one of the auction. -/
theorem AuctionTrace.pointReads (hn : PlainWord name) (h : AuctionTrace E name trace) :
    trace.flatMap (Event.pointRead F) = [name] := by
  obtain ⟨reply, tail, rfl, htail⟩ := h
  rw [List.flatMap_cons, Event.pointRead, goKey_of_no_dot hn.no_dot]
  cases htail <;> rfl

theorem AuctionTrace.mem_simulatedReads (hn : PlainWord name) (h : AuctionTrace E name trace) (k : Bytes) :
    k ∈ simulatedReads F trace ↔ k = name := by
  rw [simulatedReads_eq, h.pointReads hn, mem_foldl_insert, List.mem_singleton]
  simp

/-- No key is recorded twice: the name of the auction has no dot. -/
theorem AuctionTrace.nodup_recordedReads {worldState : Kvs} (hn : PlainWord name)
    (h : AuctionTrace E name trace) (htidy : TidyState worldState) :
    (recordedReads F worldState trace).Nodup := by
  have hpoint : (simulatedReads F trace).toList = [name] := by
    apply setToList_eq_of_sorted (List.pairwise_singleton _ _)
    intro k
    rw [h.mem_simulatedReads hn, List.mem_singleton]
  obtain ⟨reply, tail, rfl, htail⟩ := h
  have hname : transformToSGX name = name := transformToSGX_of_no_nul hn.no_nul
  rw [recordedReads, hpoint, List.map_append, List.map_singleton, hname, List.singleton_append]
  -- only a range query adds to the name
  cases htail with
  | none => exact List.nodup_singleton name
  | putAuction val => exact List.nodup_singleton name
  | putBid hb val => exact List.nodup_singleton name
  | bids range =>
    rw [simulatedRanges_pair]
    cases hgo : goRange F worldState (sgxKey [str "somePrefix", name]) with
    | none => exact List.nodup_singleton name
    | some items =>
      obtain ⟨comp, rfl⟩ := goRange_some F worldState hgo
      rw [Option.map_some, Option.toList_some, List.flatten_singleton, List.map_map]
      refine List.nodup_cons.mpr ⟨?_, htidy.nodup_range comp⟩
      intro hmem
      obtain ⟨item, hitem, he⟩ := List.mem_map.mp hmem
      obtain ⟨comp', hcomp', hkey⟩ := htidy.composite_of_mem hitem
      rw [Function.comp_apply, hkey, transformToSGX_of_plain hcomp'] at he
      apply hn.no_dot
      rw [← he]
      exact List.mem_cons_self

/-- What Fabric records for the puts. -/
theorem AuctionTrace.exists_put (hn : PlainWord name) (h : AuctionTrace E name trace)
    (hputs : PutsRecorded F trace) {f v : Bytes} (hf : (simulatedWrites F trace)[f]? = some v) :
    (f = name ∨ ∃ comp, (∀ w ∈ comp, PlainWord w) ∧ f = fabricKey comp) ∧
      ∃ val, v = base64Encode (encryptState E 1 val) := by
  obtain ⟨p, hp, hkey, rfl⟩ := exists_put_of_simulatedWrites hputs hf
  obtain ⟨keyStr, hgo, hback⟩ := hputs p hp
  rw [hgo, Option.getD_some] at hkey
  rcases h.puts hn with hnone | ⟨key, val, hone, hshape⟩
  · rw [hnone] at hp
    exact absurd hp List.not_mem_nil
  · rw [hone] at hp
    obtain rfl := List.mem_singleton.mp hp
    refine ⟨?_, val, rfl⟩
    rcases hshape with rfl | ⟨comp, hne, hcomp, rfl⟩
    · have hsame : some key = some keyStr := (goKey_of_no_dot hn.no_dot).symm.trans hgo
      exact Or.inl (hkey.symm.trans (Option.some.inj hsame).symm)
    · exact Or.inr ⟨comp, hcomp, hkey.symm.trans (goKey_sgxKey hne hcomp hgo hback)⟩

/-- The keys are tidy, and the values need no escape. -/
theorem AuctionTrace.tidy_writes (hn : PlainWord name) (h : AuctionTrace E name trace)
    (hputs : PutsRecorded F trace) {f v : Bytes} (hf : (simulatedWrites F trace)[f]? = some v) :
    TidyKey f ∧ PlainText v := by
  obtain ⟨hkey, val, rfl⟩ := h.exists_put hn hputs hf
  refine ⟨?_, plainText_of_base64 (fun c hc => mem_base64Encode hc)⟩
  rcases hkey with rfl | ⟨comp, hcomp, rfl⟩
  · exact tidyKey_plain hn
  · exact .composite hcomp

end

/-- The world state after the writes of a transaction. -/
def commitWrites (worldState : Kvs) (writes : WriteSet) (version : Version) : Kvs :=
  assignAll worldState (writes.map (fun _ val => (val, version)))

/-- The world states of the chaincode: its instantiation stores `MRENCLAVE`, and then the writes
of auction invocations are committed, each of which was simulated on some such state. -/
inductive Reached (η τ σ : Type) (F : KeyRule) : Kvs → Prop
  | instantiated (mrenclave : Bytes) (version : Version) (h : ∀ c ∈ mrenclave, c ∈ base64Chars ∨ c = 0x3d) :
    Reached η τ σ F (insertAll ∅ [(str "MRENCLAVE", mrenclave, version)])
  | committed {worldState simulated : Kvs} (E : Enclave η τ σ) (uninit : ℤ)
    (verifyTag : Bytes → Bool → τ) (args : Bytes) (responseLenIn : ℕ) (response : Bytes) (s : Session τ)
    (version : Version) (hw : Reached η τ σ F worldState) (hs : Reached η τ σ F simulated)
    (hcall : AuctionCall E.libc args)
    (hrun : invokeRun E (auctionInvoke E.libc uninit) (goHost F simulated verifyTag) args [] responseLenIn =
      (some (some response), s)) :
    Reached η τ σ F (commitWrites worldState (simulatedWrites F s.trace) version)

theorem Reached.tidyState {η τ σ : Type} {F : KeyRule} {worldState : Kvs} (h : Reached η τ σ F worldState) :
    TidyState worldState := by
  induction h with
  | instantiated mrenclave version hchars =>
    intro k v hk
    rw [getElem?_single] at hk
    split_ifs at hk with he
    · cases hk
      rw [he]
      exact ⟨.simple (by decide) (by decide) (by decide), plainText_of_base64 hchars⟩
    · cases hk
  | committed E uninit verifyTag args responseLenIn response s version hw hs hcall hrun ih ihs =>
    obtain ⟨name, hn, htrace⟩ := auctionInvoke_trace hcall hrun
    have hputs := (run_traced E _ hrun).putsRecorded
    intro k v hk
    rw [commitWrites, getElem?_assignAll, ExtTreeMap.getElem?_map] at hk
    cases hwrite : (simulatedWrites F s.trace)[k]? with
    | none =>
      rw [hwrite] at hk
      exact ih k v hk
    | some val =>
      rw [hwrite] at hk
      cases hk
      exact htrace.tidy_writes hn hputs hwrite

end SecureChaincode
