import SecureChaincode.Isolation
import SecureChaincode.SealedRecords
import SecureChaincode.ThreeWay
import SecureChaincode.Turns

/-! Auction transactions that were endorsed on an earlier state of the ledger enclave: the reads
and writes that the enclave finds in them, and what they come to at their turn. -/
namespace SecureChaincode

open Std

/-- A key of Fabric for a record or for a bid. -/
inductive AuctionKey : Bytes → Prop
  | record {name : Bytes} (hn : PlainWord name) : AuctionKey name
  | composite {comp : List Bytes} (h : ∀ w ∈ comp, PlainWord w) : AuctionKey (fabricKey comp)

/-- The world state of the peer has under the keys of Fabric the entries that the ledger enclave
has under its own names. -/
structure Mirrors (worldState state : Kvs) : Prop where
  entry : ∀ name x, str "ecc." <+: name →
    (state[name]? = some x ↔ ∃ key, worldState[key]? = some x ∧ eccName (str "ecc") key = some name)
  key : ∀ (k : Bytes) (x : KvsValue), worldState[k]? = some x → AuctionKey k
  value : ∀ (k : Bytes) (x : KvsValue), worldState[k]? = some x → PlainText x.1

theorem eccName_record {name : Bytes} (hn : PlainWord name) : eccName (str "ecc") name = some (recordName name) :=
  eccName_simple (str "ecc") hn.no_nul hn.ne_nil

theorem sgxKey_injective {comp comp' : List Bytes} (h : ∀ w ∈ comp, PlainWord w) (h' : ∀ w ∈ comp', PlainWord w)
    (heq : sgxKey comp = sgxKey comp') : comp = comp' :=
  sgxKey_injective_of_no_sep (fun w hw => (h w hw).no_dot) (fun w hw => (h' w hw).no_dot) heq

/-- The name of a record has one dot, and that of a bid has more. -/
theorem recordName_ne_composite {name : Bytes} (hn : PlainWord name) (comp : List Bytes) :
    recordName name ≠ str "ecc" ++ sgxKey comp := by
  intro heq
  have hkey : sep :: name = sgxKey comp := @List.append_cancel_left _ (str "ecc") _ _ heq
  cases comp with
  | nil =>
    cases hkey
    exact hn.ne_nil rfl
  | cons w comp =>
    apply hn.no_dot
    have hmem : sep ∈ (sgxKey (w :: comp)).tail := by
      simp [sgxKey, delimited, closed]
    rw [← hkey] at hmem
    exact hmem

/-- Two keys with one name are the same. -/
theorem AuctionKey.eq_of_eccName {k k' name : Bytes} (hk : AuctionKey k) (hk' : AuctionKey k')
    (h : eccName (str "ecc") k = some name) (h' : eccName (str "ecc") k' = some name) : k = k' := by
  cases hk with
  | record hn =>
    rw [eccName_record hn] at h
    cases hk' with
    | record hn' =>
      rw [eccName_record hn'] at h'
      exact List.append_cancel_left (Option.some.inj (h.trans h'.symm))
    | composite hc' =>
      rw [eccName_of_plain hc'] at h'
      exact absurd (Option.some.inj (h.trans h'.symm)) (recordName_ne_composite hn _)
  | composite hc =>
    rw [eccName_of_plain hc] at h
    cases hk' with
    | record hn' =>
      rw [eccName_record hn'] at h'
      exact absurd (Option.some.inj (h'.trans h.symm)) (recordName_ne_composite hn' _)
    | composite hc' =>
      rw [eccName_of_plain hc'] at h'
      exact congrArg fabricKey (sgxKey_injective hc hc' (List.append_cancel_left (Option.some.inj (h.trans h'.symm))))

theorem AuctionKey.tidyKey {k : Bytes} (h : AuctionKey k) : TidyKey k := by
  cases h with
  | record hn => exact tidyKey_plain hn
  | composite hc => exact .composite hc

theorem AuctionKey.ne_nil {k : Bytes} (h : AuctionKey k) : k ≠ [] := by
  cases h with
  | record hn => exact hn.ne_nil
  | composite hc => exact fabricKey_ne_nil _

theorem AuctionKey.prefix_eccName {k name : Bytes} (hk : AuctionKey k) (h : eccName (str "ecc") k = some name) :
    str "ecc." <+: name := by
  cases hk with
  | record hn =>
    rw [eccName_record hn] at h
    exact ⟨k, Option.some.inj h⟩
  | @composite comp hc =>
    rw [eccName_of_plain hc] at h
    exact ⟨(sgxKey comp).tail, by rw [← Option.some.inj h]; rfl⟩

section
variable {worldState state state' : Kvs}

theorem Mirrors.tidyState (h : Mirrors worldState state) : TidyState worldState := by
  intro k v hv
  obtain ⟨x, hx, rfl⟩ := Option.map_eq_some_iff.mp hv
  exact ⟨(h.key k x hx).tidyKey, h.value k x hx⟩

/-- The entry of a key is that of its name. -/
theorem Mirrors.getElem?_eq (h : Mirrors worldState state) {k name : Bytes} (hk : AuctionKey k)
    (hname : eccName (str "ecc") k = some name) : worldState[k]? = state[name]? := by
  apply Option.ext
  intro x
  rw [h.entry name x (hk.prefix_eccName hname)]
  constructor
  · exact fun hx => ⟨k, hx, hname⟩
  · rintro ⟨key, hx, hkey⟩
    rwa [hk.eq_of_eccName (h.key key x hx) hname hkey]

theorem Mirrors.congr (h : Mirrors worldState state) (heq : ∀ k, str "ecc." <+: k → state'[k]? = state[k]?) :
    Mirrors worldState state' where
  entry name x hpre := by rw [heq name hpre, h.entry name x hpre]
  key := h.key
  value := h.value

/-- One entry more. -/
theorem Mirrors.insert (h : Mirrors worldState state) {key name : Bytes} {x : KvsValue} (hk : AuctionKey key)
    (hname : eccName (str "ecc") key = some name) (hx : PlainText x.1) (hat : state'[name]? = some x)
    (heq : ∀ k, str "ecc." <+: k → k ≠ name → state'[k]? = state[k]?) : Mirrors (worldState.insert key x) state' where
  entry n y hpre := by
    by_cases hn : n = name
    · rw [hn, hat]
      constructor
      · intro hy
        exact ⟨key, by rw [ExtTreeMap.getElem?_insert_self, hy], hname⟩
      · rintro ⟨k, hy, hkn⟩
        rw [ExtTreeMap.getElem?_insert] at hy
        split_ifs at hy with hcmp
        · exact hy
        · -- an older entry of the same name would have had the same key
          have hsame := hk.eq_of_eccName (h.key k y hy) hname hkn
          exact absurd (Std.LawfulEqCmp.compare_eq_iff_eq.mpr hsame) hcmp
    · rw [heq n hpre hn, h.entry n y hpre]
      constructor
      · rintro ⟨k, hy, hkn⟩
        refine ⟨k, ?_, hkn⟩
        have hne : compare key k ≠ .eq := by
          intro hcmp
          rw [Std.LawfulEqCmp.compare_eq_iff_eq] at hcmp
          rw [hcmp, hkn] at hname
          exact hn (Option.some.inj hname)
        rw [ExtTreeMap.getElem?_insert, if_neg hne, hy]
      · rintro ⟨k, hy, hkn⟩
        refine ⟨k, ?_, hkn⟩
        rw [ExtTreeMap.getElem?_insert] at hy
        split_ifs at hy with hcmp
        · rw [Std.LawfulEqCmp.compare_eq_iff_eq] at hcmp
          rw [hcmp, hkn] at hname
          exact absurd (Option.some.inj hname) hn
        · exact hy
  key k y hy := by
    rw [ExtTreeMap.getElem?_insert] at hy
    split_ifs at hy with hcmp
    · rwa [← Std.LawfulEqCmp.compare_eq_iff_eq.mp hcmp]
    · exact h.key k y hy
  value k y hy := by
    rw [ExtTreeMap.getElem?_insert] at hy
    split_ifs at hy with hcmp
    · cases hy
      exact hx
    · exact h.value k y hy

end

/-! The action of a transaction as the ledger enclave reads it. -/

theorem exists_mapM_eq_ok {ε α β : Type} {f : α → Except ε β} {l : List α} (h : ∀ a ∈ l, ∃ b, f a = .ok b) :
    ∃ bs, l.mapM f = .ok bs := by
  induction l with
  | nil => exact ⟨[], rfl⟩
  | cons a l ih =>
    obtain ⟨b, hb⟩ := h a List.mem_cons_self
    obtain ⟨bs, hbs⟩ := ih (fun a' ha' => h a' (List.mem_cons_of_mem a ha'))
    rw [List.mapM_cons, hb, hbs]
    exact ⟨b :: bs, rfl⟩

section
variable (version : Bytes → Version) {kv : Peer.KVRWSet} {n : Peer.NsRwSet}

theorem EccShaped.nsReadList (hkv : EccShaped kv) :
    nsReadList (pbNs version ⟨str "ecc", kv⟩) =
      .ok ((rangeReads kv).map (fun r => (str "ecc" ++ transformToSGX r.key, version r.key)) ++
        kv.reads.map (fun r => (str "ecc." ++ r.key, version r.key))) := by
  have hranges : (kv.rangeQueriesInfo.map (pbRange version)).mapM (queryKeys (str "ecc")) =
      .ok (kv.rangeQueriesInfo.map (fun q => (q.rawReads.getD []).map
        (fun r => (str "ecc" ++ transformToSGX r.key, version r.key)))) := by
    apply mapM_map_eq_ok
    intro q hq
    obtain ⟨reads, hreads, hkeys⟩ := hkv.range q hq
    rw [queryKeys_pbRange version hreads hkeys, hreads]
    rfl
  have hpoints : (kv.reads.map (pbRead version)).mapM (pointKey (str "ecc")) =
      .ok (kv.reads.map (fun r => [(str "ecc." ++ r.key, version r.key)])) :=
    mapM_map_eq_ok (fun r hr => pointKey_pbRead version (hkv.point r hr).1 (hkv.point r hr).2)
  have hns : pbField (str "ecc") = some (str "ecc") := rfl
  have hecc : cstr (str "ecc") = str "ecc" := by decide
  rw [SecureChaincode.nsReadList, pbNs, hns]
  simp only [deref, decodePb, encode, bind, Except.bind, hecc, hranges, hpoints, pure, Except.pure]
  rw [← List.flatMap_def, ← List.flatMap_def, ← List.map_eq_flatMap, rangeReads, List.map_flatMap]

theorem Bystander.nsReadList (hn : Bystander n) : ∃ l, nsReadList (pbNs version n) = .ok l := by
  have hpoints : (n.kvRwSet.reads.map (pbRead version)).mapM (pointKey (cstr n.nameSpace)) =
      .ok (n.kvRwSet.reads.map (fun r => [(simpleName (cstr n.nameSpace) r.key, version r.key)])) := by
    apply mapM_map_eq_ok
    intro r hr
    rw [pointKey, pbRead, pbField_of_ne_nil (hn.reads r hr)]
    rfl
  rw [SecureChaincode.nsReadList, pbNs, pbField_of_ne_nil hn.ne_nil, hn.ranges]
  simp only [deref, decodePb, encode, bind, Except.bind, List.map_nil, List.mapM_nil, pure, Except.pure, hpoints]
  exact ⟨_, rfl⟩

theorem Bystander.decodedNs (hn : Bystander n) :
    ∃ kvrwset, decodedNs (pbNs version n) = some (cstr n.nameSpace, kvrwset) ∧ kvrwset.writes = [] := by
  rw [SecureChaincode.decodedNs, pbNs, pbField_of_ne_nil hn.ne_nil, hn.writes]
  exact ⟨_, rfl, rfl⟩

theorem Bystander.nsWriteList (hn : Bystander n) : nsWriteList (pbNs version n) = [] := by
  obtain ⟨kvrwset, hns, hwrites⟩ := hn.decodedNs version
  rw [SecureChaincode.nsWriteList, hns, Option.elim_some, hwrites, writeList]
  split_ifs <;> rfl

theorem Bystander.nsSingleWrite (hn : Bystander n) : nsSingleWrite (pbNs version n) = true := by
  obtain ⟨kvrwset, hns, -⟩ := hn.decodedNs version
  rw [SecureChaincode.nsSingleWrite, hns, Option.elim_some, singleWrite, bne_iff_ne.mpr hn.not_ercc, Bool.true_or]

theorem writeList_ecc (writes : List KVWrite) :
    writeList (str "ecc") writes = writes.filterMap (eccFirstWrite (str "ecc") writes) := by
  rw [writeList, if_neg (by decide), if_neg (by decide), if_pos rfl]

/-- A transaction of one action, by the judgement on its reads. -/
theorem planEnvelope_single {number : ℕ} {e : Encoded Envelope} {a : TransactionAction}
    (htx : envelopeTx number e = some ⟨[a]⟩) {reads : List (Bytes × Version)} (hreads : actionReads a = .ok reads)
    (hsingle : actionSingleWrite a = true) (state updates : Kvs) (txFilter : Bytes) (txNum : ℕ) :
    planEnvelope state number txFilter updates (e, txNum) = ⟨[], false⟩ ∨
      (∀ p ∈ reads, fresh state updates p = true) ∧
        planEnvelope state number txFilter updates (e, txNum) = ⟨actionWrites a, true⟩ := by
  rw [planEnvelope]
  split_ifs with hskip
  · exact Or.inl rfl
  simp only [htx, planTx, hreads]
  split_ifs with hfresh
  · right
    refine ⟨List.all_eq_true.mp hfresh, ?_⟩
    rw [List.append_nil, hsingle, Bool.true_and]
  · exact Or.inl rfl

end

/-- An auction transaction before it is ordered: the invocation, the state of the ledger enclave at
its endorsement, and this state under the keys of Fabric. -/
structure Endorsement (η τ σ : Type) where
  invocation : Invocation η τ σ
  seen : Kvs
  worldState : Kvs

section
variable {η τ σ : Type} (F : KeyRule) (x : Endorsement η τ σ)

/-- The run that was endorsed. -/
def Endorsement.simulated : Option (Option Bytes) × Session τ := x.invocation.simulated F x.worldState

/-- What Fabric has recorded for the chaincode in this run. -/
def Endorsement.kvRwSet : Peer.KVRWSet := simulate F x.worldState (x.simulated F).2.trace

/-- The envelope holds the transaction of the endorsement: one action, in which the reads of the
chaincode have the versions of the state that was seen. Beside the chaincode there are only
namespaces that were read. -/
structure Endorsement.HeldBy (number : ℕ) (e : Encoded Envelope) : Prop where
  mirrors : Mirrors x.worldState x.seen
  operation : ∃ op, x.invocation.operation = some op ∧ (∀ w ∈ op.names, PlainWord w) ∧
    op.auctionName ≠ str "MRENCLAVE"
  response : ∃ response, (x.simulated F).1 = some (some response)
  transaction : ∃ (a : TransactionAction) (version : Bytes → Version) (pre post : List Peer.NsRwSet),
    envelopeTx number e = some ⟨[a]⟩ ∧
    (∀ n ∈ pre, Bystander n) ∧ (∀ n ∈ post, Bystander n) ∧
    actionRwset a = .ok (some ⟨pre.map (pbNs version) ++
      pbNs (readVersion x.worldState) ⟨str "ecc", x.kvRwSet F⟩ :: post.map (pbNs version)⟩)

end

/-- The key of Fabric for what an operation stores. -/
def Operation.target : Operation → Bytes
  | .submit auctionName bidderName _ => fabricKey (bidKey auctionName bidderName)
  | op => op.auctionName

/-- The ledger's name for it. -/
def Operation.ledgerName : Operation → Bytes
  | .submit auctionName bidderName _ => str "ecc" ++ sgxKey (bidKey auctionName bidderName)
  | op => recordName op.auctionName

section
variable {op : Operation} (hplain : ∀ w ∈ op.names, PlainWord w)
include hplain

theorem Operation.auctionKey_target : AuctionKey op.target := by
  cases op with
  | submit auctionName bidderName value =>
    exact .composite (plainWord_bidKey (hplain _ List.mem_cons_self)
      (hplain _ (List.mem_cons_of_mem _ List.mem_cons_self)))
  | create auctionName => exact .record (hplain _ List.mem_cons_self)
  | close auctionName => exact .record (hplain _ List.mem_cons_self)
  | eval auctionName => exact .record (hplain _ List.mem_cons_self)

theorem Operation.eccName_target : eccName (str "ecc") op.target = some op.ledgerName := by
  cases op with
  | submit auctionName bidderName value =>
    exact eccName_of_plain (plainWord_bidKey (hplain _ List.mem_cons_self)
      (hplain _ (List.mem_cons_of_mem _ List.mem_cons_self)))
  | create auctionName => exact eccName_record (hplain _ List.mem_cons_self)
  | close auctionName => exact eccName_record (hplain _ List.mem_cons_self)
  | eval auctionName => exact eccName_record (hplain _ List.mem_cons_self)

/-- The put of an operation goes to its target. -/
theorem Operation.goKey_put {libc : Libc} {flag : Option Bool} {key val keyStr : Bytes} {F : KeyRule}
    (hput : op.planFor libc flag = .put key val) (hgo : goKey F (cstr key) = some keyStr)
    (hback : transformToSGX keyStr = cstr key) : keyStr = op.target := by
  have hn := hplain _ op.auctionName_mem
  have hrecord : key = op.auctionName → keyStr = op.auctionName := by
    rintro rfl
    rw [cstr_eq_self hn.no_nul, goKey_of_no_dot hn.no_dot] at hgo
    exact (Option.some.inj hgo).symm
  cases op with
  | submit auctionName bidderName value =>
    have hwords : ∀ w ∈ bidKey auctionName bidderName, PlainWord w :=
      plainWord_bidKey hn (hplain bidderName (List.mem_cons_of_mem _ List.mem_cons_self))
    have hkey : key = sgxKey (bidKey auctionName bidderName) := by
      rw [sgxKey_bidKey]
      rcases flag with _ | _ | _ <;> cases hput
      rfl
    rw [hkey, cstr_eq_self (plainText_sgxKey hwords).no_nul] at hgo hback
    exact goKey_sgxKey (List.cons_ne_nil _ _) hwords hgo hback
  | create auctionName =>
    rcases flag with _ | _ | _ <;> cases hput
    exact hrecord rfl
  | close auctionName =>
    rcases flag with _ | _ | _ <;> cases hput
    exact hrecord rfl
  | eval auctionName => rcases flag with _ | _ | _ <;> cases hput

end

section
variable {η τ σ : Type}

/-- What the ledger enclave stores for an operation that has found the record with this flag. -/
def Operation.stored (E : Enclave η τ σ) (iv : Bytes) (flag : Option Bool) (op : Operation) : List (Bytes × Bytes) :=
  match op.planFor E.libc flag with
  | .put _ val => [(op.ledgerName, sealWith E iv val)]
  | _ => []

variable {F : KeyRule} {x : Endorsement η τ σ} {E : Enclave η τ σ} {op : Operation}

theorem toList_insert_empty (k v : Bytes) : ((∅ : WriteSet).insert k v).toList = [(k, v)] := by
  have hone : (∅ : WriteSet).insert k v = insertAll ∅ [(k, v)] := by
    apply ExtTreeMap.ext_getElem?
    intro k'
    simp only [insertAll, List.foldl_cons, List.foldl_nil, ExtTreeMap.getElem?_insert, ExtTreeMap.getElem?_insertIfNew,
      ExtTreeMap.not_mem_empty, not_false_eq_true, and_true]
  rw [hone]
  exact toList_insertAll_of_sorted (List.pairwise_singleton _ _)

section
variable (hop : x.invocation.operation = some op) {response : Bytes}
  (hresponse : (x.simulated F).1 = some (some response))
include hop hresponse

theorem Endorsement.program_run :
    (op.program x.invocation.enclave.libc x.invocation.uninit).run
        (shimStep x.invocation.enclave (goHost F x.worldState x.invocation.verifyTag)) freshSession =
      (some response, (x.simulated F).2) := by
  rcases x.invocation.simulated_cases (F := F) x.worldState with ⟨text, op', hread, hop', hrun⟩ | ⟨hnone, -⟩
  · cases hop.symm.trans hop'
    apply (auctionInvoke_run hread _).1
    · exact x.invocation.responseLenIn
    rw [← hrun, ← hresponse]
    rfl
  · rw [hop] at hnone
    cases hnone

/-- The record was read, and the plan for its flag was performed. -/
theorem Endorsement.performed (hmirrors : Mirrors x.worldState x.seen) (hn : PlainWord op.auctionName)
    (hE : SameBuild x.invocation.enclave E) (hgcm : E.gcm.RoundTrip) {flag : Option Bool}
    (hrecord : RecordIs E op.auctionName x.seen flag) :
    ∃ reply tail, Performed x.invocation.enclave (goHost F x.worldState x.invocation.verifyTag) x.invocation.uninit
        op.auctionName [.getState op.auctionName maxValueSize reply] (op.planFor E.libc flag) response tail ∧
      (x.simulated F).2.trace = .getState op.auctionName maxValueSize reply :: tail := by
  obtain ⟨reply, auctionBytes, len, plan, tail, hreply, hvalue, hplan, hperformed, htrace⟩ :=
    op.run_cases hn.no_nul (x.program_run hop hresponse)
  refine ⟨reply, tail, ?_, htrace⟩
  rw [goHost_getState F x.worldState _ _ _ (goKey_of_no_dot hn.no_dot),
    hmirrors.getElem?_eq (.record hn) (eccName_record hn)] at hreply
  rw [hE.libc_eq] at hplan
  have hplanFor : plan = op.planFor E.libc flag := by
    cases hrecord with
    | absent hnone =>
      rw [hnone] at hreply
      cases hreply
      cases hvalue
      rw [op.plan_of_absent] at hplan
      exact (Option.some.inj hplan).symm
    | stored hiv hsome =>
      rw [hsome] at hreply
      simp only [Option.map_some, Option.getD_some] at hreply
      split_ifs at hreply with hfit
      cases hreply
      obtain ⟨rest, rfl, rfl⟩ := hE.readValue_sealWith hiv _ hgcm (Nat.le_of_not_lt hfit) hvalue
      exact op.plan_of_marshalled hn.no_nul hplan
  rwa [← hplanFor]

variable (hplain : ∀ w ∈ op.names, PlainWord w)
include hplain

theorem Endorsement.eccShaped (hmirrors : Mirrors x.worldState x.seen) : EccShaped (x.kvRwSet F) := by
  have hrun := x.program_run hop hresponse
  exact (op.trace hplain hrun).eccShaped (hplain _ op.auctionName_mem) hmirrors.tidyState
    (run_traced _ _ hrun).putsRecorded

theorem Endorsement.mem_reads : ⟨op.auctionName⟩ ∈ (x.kvRwSet F).reads := by
  have htrace := op.trace hplain (x.program_run hop hresponse)
  apply List.mem_map_of_mem
  rw [ExtTreeSet.mem_toList, htrace.mem_simulatedReads (hplain _ op.auctionName_mem)]

variable (hmirrors : Mirrors x.worldState x.seen) (hE : SameBuild x.invocation.enclave E) (hgcm : E.gcm.RoundTrip)
  {flag : Option Bool} (hrecord : RecordIs E op.auctionName x.seen flag)
include hmirrors hE hgcm hrecord

/-- Fabric has recorded the put of the plan, if there is one. -/
theorem Endorsement.writes_eq : (x.kvRwSet F).writes =
    match op.planFor E.libc flag with
    | .put _ val => [⟨op.target, base64Encode (encryptState x.invocation.enclave 1 val)⟩]
    | _ => [] := by
  have hputs := (run_traced _ _ (x.program_run hop hresponse)).putsRecorded
  obtain ⟨reply, tail, hperformed, htrace⟩ :=
    x.performed hop hresponse hmirrors (hplain _ op.auctionName_mem) hE hgcm hrecord
  rw [kvRwSet, simulate]
  rw [htrace] at hputs ⊢
  generalize hplan : op.planFor E.libc flag = plan at hperformed
  cases hperformed with
  | answer result => rfl
  | tally hreply hread heval => rfl
  | put key val =>
    obtain ⟨keyStr, hgo, hback⟩ := hputs _ (List.mem_cons_self)
    have hkey : keyStr = op.target := op.goKey_put hplain hplan hgo hback
    simp only [simulatedWrites, List.foldl_cons, List.foldl_nil, hgo, Option.elim_some, hkey, toList_insert_empty,
      List.map_cons, List.map_nil]
    rfl

/-- What Fabric has recorded for an operation that has put something. -/
theorem Endorsement.kvRwSet_of_put {key val : Bytes} (hput : op.planFor E.libc flag = .put key val) :
    x.kvRwSet F =
      ⟨[⟨op.auctionName⟩], [], [⟨op.target, sealWith E (x.invocation.enclave.readRand 1) val⟩]⟩ := by
  have hn := hplain _ op.auctionName_mem
  have hreads : (x.kvRwSet F).reads = [⟨op.auctionName⟩] := by
    have hpoint : (simulatedReads F (x.simulated F).2.trace).toList = [op.auctionName] := by
      apply setToList_eq_of_sorted (List.pairwise_singleton _ _)
      intro k
      rw [(op.trace hplain (x.program_run hop hresponse)).mem_simulatedReads hn, List.mem_singleton]
    rw [kvRwSet, simulate, hpoint]
    rfl
  have hranges : (x.kvRwSet F).rangeQueriesInfo = [] := by
    obtain ⟨reply, tail, hperformed, htrace⟩ := x.performed hop hresponse hmirrors hn hE hgcm hrecord
    rw [hput] at hperformed
    rw [kvRwSet, simulate, htrace]
    cases hperformed
    rfl
  have hwrites := x.writes_eq hop hresponse hplain hmirrors hE hgcm hrecord
  rw [hput] at hwrites
  simp only [hE.encryptState_eq] at hwrites
  calc x.kvRwSet F = ⟨(x.kvRwSet F).reads, (x.kvRwSet F).rangeQueriesInfo, (x.kvRwSet F).writes⟩ := rfl
    _ = _ := by rw [hreads, hranges, hwrites]

/-- The ledger enclave stores the same under its own name. -/
theorem Endorsement.nsWriteList_eq (version : Bytes → Version) :
    nsWriteList (pbNs version ⟨str "ecc", x.kvRwSet F⟩) =
      op.stored E (x.invocation.enclave.readRand 1) flag := by
  have hwrites := x.writes_eq hop hresponse hplain hmirrors hE hgcm hrecord
  have hns : decodedNs (pbNs version ⟨str "ecc", x.kvRwSet F⟩) = some (str "ecc", _) := rfl
  rw [nsWriteList, hns, Option.elim_some, writeList_ecc, Operation.stored]
  simp only [hwrites]
  cases op.planFor E.libc flag with
  | answer result => rfl
  | tally => rfl
  | put key val =>
    have htarget := (op.auctionKey_target hplain).ne_nil
    have hsealed := sealWith_ne_nil (E := E) (x.invocation.enclave.length_readRand 1) val
    simp only [List.map_cons, List.map_nil, List.filterMap_cons, List.filterMap_nil, eccFirstWrite, pbWrite,
      pbField_of_ne_nil htarget, hE.encryptState_eq, pbField_of_ne_nil hsealed, op.eccName_target hplain,
      List.head?_cons, Option.bind_eq_bind, Option.bind_some, Option.pure_def]

end

/-- An endorsed transaction at its turn: it is rejected, or the record is as it was seen and the
writes of the plan for its flag are stored. -/
theorem Endorsement.HeldBy.outcome {number : ℕ} {e : Encoded Envelope} (h : x.HeldBy F number e)
    (hop : x.invocation.operation = some op) (hE : SameBuild x.invocation.enclave E) (hgcm : E.gcm.RoundTrip)
    {flag : Option Bool} (hrecord : RecordIs E op.auctionName x.seen flag) (state updates : Kvs) (txFilter : Bytes)
    (txNum : ℕ) :
    planEnvelope state number txFilter updates (e, txNum) = ⟨[], false⟩ ∨
      fresh state updates (recordName op.auctionName, readVersion x.seen (recordName op.auctionName)) = true ∧
        ∃ iv, iv.length = 12 ∧
          planEnvelope state number txFilter updates (e, txNum) = ⟨op.stored E iv flag, true⟩ := by
  obtain ⟨op', hop', hplain, -⟩ := h.operation
  cases hop.symm.trans hop'
  obtain ⟨response, hresponse⟩ := h.response
  obtain ⟨a, version, pre, post, htx, hpre, hpost, hrwset⟩ := h.transaction
  have hshaped := x.eccShaped hop hresponse hplain h.mirrors
  have hn := hplain _ op.auctionName_mem
  -- the reads decode, and that of the record is among them
  have hdecode : ∀ n ∈ pre.map (pbNs version) ++
      pbNs (readVersion x.worldState) ⟨str "ecc", x.kvRwSet F⟩ :: post.map (pbNs version), ∃ l, nsReadList n = .ok l := by
    intro n hmem
    rcases List.mem_append.mp hmem with hmem | hmem
    · obtain ⟨m, hm, rfl⟩ := List.mem_map.mp hmem
      exact (hpre m hm).nsReadList version
    rcases List.mem_cons.mp hmem with rfl | hmem
    · exact ⟨_, hshaped.nsReadList _⟩
    · obtain ⟨m, hm, rfl⟩ := List.mem_map.mp hmem
      exact (hpost m hm).nsReadList version
  obtain ⟨lists, hlists⟩ := exists_mapM_eq_ok hdecode
  have hreads : actionReads a = .ok lists.flatten := by
    rw [actionReads, hrwset]
    simp only [bind, Except.bind, readList, hlists, pure, Except.pure]
  have hmem : (recordName op.auctionName, readVersion x.seen (recordName op.auctionName)) ∈ lists.flatten := by
    obtain ⟨l, hl, hecc⟩ := mapM_eq_ok_mem hlists (List.mem_append_right _ List.mem_cons_self)
    refine List.mem_flatten_of_mem hl ?_
    rw [hshaped.nsReadList] at hecc
    cases hecc
    refine List.mem_append_right _ (List.mem_map.mpr ⟨_, x.mem_reads hop hresponse hplain, ?_⟩)
    rw [readVersion, versionOf, h.mirrors.getElem?_eq (.record hn) (eccName_record hn)]
    rfl
  have hns : actionNs a = pre.map (pbNs version) ++
      pbNs (readVersion x.worldState) ⟨str "ecc", x.kvRwSet F⟩ :: post.map (pbNs version) := by
    rw [actionNs, hrwset]
  have hwrites : actionWrites a = op.stored E (x.invocation.enclave.readRand 1) flag := by
    have hnone : ∀ l : List Peer.NsRwSet, (∀ n ∈ l, Bystander n) → (l.map (pbNs version)).flatMap nsWriteList = [] := by
      intro l hl
      rw [List.flatMap_map, List.flatMap_eq_nil_iff]
      exact fun n hn => (hl n hn).nsWriteList version
    rw [actionWrites, hns, List.flatMap_append, List.flatMap_cons, hnone pre hpre, hnone post hpost, List.nil_append,
      List.append_nil]
    exact x.nsWriteList_eq hop hresponse hplain h.mirrors hE hgcm hrecord _
  have hsingle : actionSingleWrite a = true := by
    rw [actionSingleWrite, hns, List.all_append, List.all_cons, List.all_map, List.all_map, Bool.and_eq_true, Bool.and_eq_true]
    refine ⟨List.all_eq_true.mpr (fun n hn => (hpre n hn).nsSingleWrite version), rfl,
      List.all_eq_true.mpr (fun n hn => (hpost n hn).nsSingleWrite version)⟩
  rcases planEnvelope_single htx hreads hsingle state updates txFilter txNum with hreject | ⟨hfresh, haccept⟩
  · exact Or.inl hreject
  · refine Or.inr ⟨hfresh _ hmem, x.invocation.enclave.readRand 1, x.invocation.enclave.length_readRand 1, ?_⟩
    rw [haccept, hwrites]

end

end SecureChaincode
