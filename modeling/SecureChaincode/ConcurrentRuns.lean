import SecureChaincode.LifeCycle
import SecureChaincode.PointReads

/-! Auction transactions that are endorsed concurrently, over whole runs of the ledger enclave. -/
namespace SecureChaincode

open Std

section
variable {η τ σ : Type} {F : KeyRule} {E : Enclave η τ σ} {ts : List (Turn (Endorsement η τ σ))}

/-- The states that the enclave has had behind its blocks so far. -/
def Committed (libs : Libs) (blocks : List (OrderedBlock (Endorsement η τ σ))) (s : Kvs) : Prop :=
  ∃ t, Visits (parseBlock libs) start (blocks.map OrderedBlock.blockData) t ∧ t.state = s

variable (F E) in
/-- Every auction transaction in the blocks was endorsed on a state that had been committed before. -/
def AuctionRun (libs : Libs) (blocks : List (OrderedBlock (Endorsement η τ σ))) : Prop :=
  ∀ pre b post, blocks = pre ++ b :: post → ∀ block, b.blockData.decoded = some block →
    ∀ p ∈ block.data.zipIdx, Legitimate F E (Committed libs pre) block.number p.1 (b.note p.2)

/-- The committed states after one block more. -/
theorem Committed.snoc {libs : Libs} {bs : List (OrderedBlock (Endorsement η τ σ))} {b : OrderedBlock (Endorsement η τ σ)}
    {L : Ledger} {codes : List RetCode} {s : Kvs}
    (hrun : run libs ((bs ++ [b]).map OrderedBlock.blockData) = some (L, codes)) (h : Committed libs (bs ++ [b]) s) :
    Committed libs bs s ∨ s = L.state := by
  obtain ⟨t, ht, rfl⟩ := h
  rw [List.map_append, List.map_singleton] at ht hrun
  rcases (visits_snoc (parseBlock libs)).mp ht with ht | ⟨os, hos⟩
  · exact Or.inl ⟨t, ht, rfl⟩
  · rw [run, hos] at hrun
    cases hrun
    exact Or.inr rfl

theorem mirrors_empty : Mirrors ∅ ∅ where
  entry name x _ := by
    rw [ExtTreeMap.getElem?_empty]
    constructor
    · exact fun h => absurd h (by simp)
    · rintro ⟨key, hkey, -⟩
      rw [ExtTreeMap.getElem?_empty] at hkey
      cases hkey
  key k x hx := by
    rw [ExtTreeMap.getElem?_empty] at hx
    cases hx
  value k x hx := by
    rw [ExtTreeMap.getElem?_empty] at hx
    cases hx

theorem sound_start (libs : Libs) : Sound F E (Committed (η := η) (τ := τ) (σ := σ) libs []) start.state [] := by
  have hempty (k : Bytes) : start.state[k]? = none := ExtTreeMap.getElem?_empty
  have hstart : ∀ s, Committed (η := η) (τ := τ) (σ := σ) libs [] s → s = start.state := by
    rintro s ⟨t, ht, rfl⟩
    rw [visits_nil (parseBlock libs) ht]
  constructor
  · exact fun name _ _ => ⟨none, .absent (hempty _), .absent⟩
  · intro s hs name _ _
    rw [hstart s hs]
    exact ⟨none, .absent (hempty _)⟩
  · intro s hs name _ _ _ k _
    rw [hstart s hs]
  · exact ⟨∅, mirrors_empty⟩
  · exact fun t ht => absurd ht List.not_mem_nil

/-- The state that was reached is one of the committed ones from now on. -/
theorem Sound.commit {past past' : Kvs → Prop} {o : Kvs} (hS : Sound F E past o ts)
    (h : ∀ s, past' s → past s ∨ s = o) : Sound F E past' o ts where
  stage := hS.stage
  known s hs name hn hmr := by
    rcases h s hs with hs | rfl
    · exact hS.known s hs name hn hmr
    · obtain ⟨flag, hflag, -⟩ := hS.stage name hn hmr
      exact ⟨flag, hflag⟩
  settled s hs name hn hmr hclosed k hk := by
    rcases h s hs with hs | rfl
    · exact hS.settled s hs name hn hmr hclosed k hk
    · rfl
  mirrored := hS.mirrored
  evals := hS.evals

/-- A committed block keeps the invariant, turn by turn. -/
theorem Sound.block {past : Kvs → Prop} {L L' : Ledger} {block : Block} {txFilter : Bytes}
    {note : ℕ → Option (Endorsement η τ σ)} (hgcm : E.gcm.RoundTrip) (hcommits : Commits L block txFilter L')
    (hfollows : ∀ s, past s → Follows s L.state)
    (hbelow : ∀ k v, versionOf L.state k = some v → v.blockNum < block.number)
    (hgenesis : block.number = 0 → ∀ e ∈ block.data, envelopeTx 0 e = none)
    (hlegitimate : ∀ p ∈ block.data.zipIdx, Legitimate F E past block.number p.1 (note p.2))
    (hS : Sound F E past L.state ts) :
    (∀ s, past s → Follows s L'.state) ∧
      Sound F E past L'.state (ts ++ envelopeTurns L.state block.number txFilter note ∅ block.data.zipIdx) := by
  have hinv := @envelopeTurns_invariant _ L.state block.number txFilter note
    (fun updates ts => Pending block.number updates ∧ Sound F E past (assignAll L.state updates) ts)
    block.data.zipIdx ?_ ∅ ts ⟨pending_empty _, (assignAll_empty L.state).symm ▸ hS⟩
  · rw [← hcommits.state_eq] at hinv
    refine ⟨fun s hs => ?_, hinv.2⟩
    rw [hcommits.state_eq]
    exact (hfollows s hs).trans (hinv.1.follows hbelow)
  · rintro ⟨e, txNum⟩ he updates ts' ⟨hpending, hS'⟩
    refine ⟨hpending.insertAll (fun hne => ?_), hS'.turn hgcm ⟨hfollows, hbelow, hpending⟩ (hlegitimate _ he)⟩
    -- there are no transactions in the genesis block
    by_contra hzero
    obtain ⟨p, hp⟩ := List.exists_mem_of_ne_nil _ hne
    obtain ⟨tx, htx, -⟩ := mem_planEnvelope_writes hp
    have hnum : block.number = 0 := by omega
    rw [hnum, hgenesis hnum e (List.fst_mem_of_mem_zipIdx he)] at htx
    cases htx

/-- The condition on one block more. -/
theorem AuctionRun.snoc {libs : Libs} {bs : List (OrderedBlock (Endorsement η τ σ))}
    {b : OrderedBlock (Endorsement η τ σ)} (h : AuctionRun F E libs bs)
    (hb : ∀ block, b.blockData.decoded = some block → ∀ p ∈ block.data.zipIdx,
      Legitimate F E (Committed libs bs) block.number p.1 (b.note p.2)) : AuctionRun F E libs (bs ++ [b]) := by
  intro pre c post heq
  rcases List.eq_nil_or_concat post with rfl | ⟨post', d, rfl⟩
  · obtain ⟨rfl, hc⟩ := List.append_inj' heq rfl
    cases hc
    exact hb
  · rw [List.concat_eq_append, ← List.cons_append, ← List.append_assoc] at heq
    exact h pre c post' (List.append_inj_left' heq rfl)

/-- Blocks without transactions may come in between. -/
theorem AuctionRun.append_of_quiet {libs : Libs} {bs cs : List (OrderedBlock (Endorsement η τ σ))}
    (h : AuctionRun F E libs bs) (hcs : ∀ b ∈ cs, Quiet b ∧ ∀ i, b.note i = none) :
    AuctionRun F E libs (bs ++ cs) := by
  induction cs using List.reverseRecOn with
  | nil => rwa [List.append_nil]
  | append_singleton cs c ih =>
    rw [← List.append_assoc]
    refine (ih (fun b hb => hcs b (List.mem_append_left _ hb))).snoc (fun block hblock p hp => ?_)
    obtain ⟨hquiet, hnote⟩ := hcs c (List.mem_append_right _ List.mem_cons_self)
    rw [hnote]
    refine .foreign (fun t ht => ?_)
    rw [hquiet block hblock p.1 (List.fst_mem_of_mem_zipIdx hp)] at ht
    cases ht

theorem AuctionRun.init {libs : Libs} {bs : List (OrderedBlock (Endorsement η τ σ))}
    {b : OrderedBlock (Endorsement η τ σ)} (h : AuctionRun F E libs (bs ++ [b])) : AuctionRun F E libs bs := by
  intro pre c post heq
  exact h pre c (post ++ [b]) (by rw [heq, List.append_assoc, List.cons_append])

theorem GenesisConfigOnly.init {bs : List (Encoded Block)} {b : Encoded Block} (h : GenesisConfigOnly (bs ++ [b])) :
    GenesisConfigOnly bs :=
  fun c hc => h c (List.mem_append_left _ hc)

/-- Run lemma of the invariant. -/
theorem run_sound {libs : Libs} {blocks : List (OrderedBlock (Endorsement η τ σ))} {L : Ledger} {codes : List RetCode}
    (hgcm : E.gcm.RoundTrip) (h : run libs (blocks.map OrderedBlock.blockData) = some (L, codes))
    (hplace : InPlaceRun libs (blocks.map OrderedBlock.blockData))
    (hgenesis : GenesisConfigOnly (blocks.map OrderedBlock.blockData)) (hrun : AuctionRun F E libs blocks) :
    (∀ s, Committed libs blocks s → Follows s L.state) ∧
      Sound F E (Committed libs blocks) L.state (turns libs start blocks) := by
  refine turns_invariant libs (P := fun bs L ts => InPlaceRun libs (bs.map OrderedBlock.blockData) →
    GenesisConfigOnly (bs.map OrderedBlock.blockData) → AuctionRun F E libs bs →
      (∀ s, Committed libs bs s → Follows s L.state) ∧ Sound F E (Committed libs bs) L.state ts)
    ?_ ?_ ?_ h hplace hgenesis hrun
  · intro _ _ _
    refine ⟨?_, sound_start libs⟩
    rintro s ⟨t, ht, rfl⟩
    rw [visits_nil (parseBlock libs) ht]
    exact Follows.refl _
  · intro bs b L codes L' block txFilter ts hL ih hb hcommits hL' hplace hgenesis hrun
    have hlegitimate := hrun bs b [] rfl block hb
    have hcommitted : ∀ s, Committed libs (bs ++ [b]) s → Committed libs bs s ∨ s = L'.state := fun s => Committed.snoc hL'
    rw [List.map_append, List.map_singleton] at hplace hgenesis
    obtain ⟨hfollows, hS⟩ := ih hplace.init hgenesis.init hrun.init
    have hnumber := number_eq_of_inPlace hb hcommits (run_sequenceNumber hL) (hplace.last hL)
    have hbelow : ∀ k v, versionOf L.state k = some v → v.blockNum < block.number := by
      rw [hnumber]
      exact (run_chainInv hL hplace.init).below
    have hempty : block.number = 0 → ∀ e ∈ block.data, envelopeTx 0 e = none :=
      fun hzero => hgenesis b.blockData (List.mem_append_right _ List.mem_cons_self) block hb hzero
    obtain ⟨hfollows', hS'⟩ := hS.block hgcm hcommits hfollows hbelow hempty hlegitimate
    refine ⟨fun s hs => ?_, hS'.commit hcommitted⟩
    rcases hcommitted s hs with hs | rfl
    · exact hfollows' s hs
    · exact Follows.refl _
  · intro bs b L codes L' code ts hL ih hstate hL' hplace hgenesis hrun
    have hcommitted : ∀ s, Committed libs (bs ++ [b]) s → Committed libs bs s ∨ s = L'.state := fun s => Committed.snoc hL'
    rw [List.map_append, List.map_singleton] at hplace hgenesis
    obtain ⟨hfollows, hS⟩ := ih hplace.init hgenesis.init hrun.init
    rw [← hstate] at hfollows hS
    refine ⟨fun s hs => ?_, hS.commit hcommitted⟩
    rcases hcommitted s hs with hs | rfl
    · exact hfollows s hs
    · exact Follows.refl _

variable (F) in
/-- Auction transactions are endorsed on states that were committed before, and are ordered into
blocks in whatever way. As long as the 32-bit counter of the ledger has not come round, the
effective operations on an auction are in commit order: one creation, then bids, then at most one
closing. An auction that is closed stays as it is, and every successful evaluation returns what
the same invocation returns on the state at its commit point. -/
theorem auction_life_cycle (libs : Libs) (blocks : List (OrderedBlock (Endorsement η τ σ))) (L : Ledger)
    (codes : List RetCode) (hgcm : E.gcm.RoundTrip)
    (h : run libs (blocks.map OrderedBlock.blockData) = some (L, codes))
    (hnum : ∀ b ∈ blocks, ∀ block, b.blockData.decoded = some block → block.number < 2^32)
    (hgenesis : GenesisConfigOnly (blocks.map OrderedBlock.blockData)) (hrun : AuctionRun F E libs blocks)
    (hround : (chain (blocks.map OrderedBlock.blockData) codes).length < 2^32) :
    (∀ name, PlainWord name → name ≠ str "MRENCLAVE" →
        (∃ flag, Stage name flag (effects name (turns libs start blocks))) ∧
          ∀ s, Committed libs blocks s → RecordIs E name s (some false) →
            ∀ k, OfAuction name k → L.state[k]? = s[k]?) ∧
      ∀ t ∈ turns libs start blocks, t.EvalSound F := by
  have hplace := inPlaceRun_of_numbers_lt h (List.forall_mem_map.mpr hnum) hround
  obtain ⟨-, hS⟩ := run_sound hgcm h hplace hgenesis hrun
  refine ⟨fun name hn hmr => ⟨?_, fun s hs hclosed k hk => ?_⟩, hS.evals⟩
  · obtain ⟨flag, -, hstage⟩ := hS.stage name hn hmr
    exact ⟨flag, hstage⟩
  · exact hS.settled s hs name hn hmr hclosed k hk

end

/-! A run in which an auction is created, and a run that goes once round the counter. -/

/-- A transaction that has read the record of the auction `a` and writes one key. -/
def auctionTx (version : Version) (key val : Bytes) : Encoded Envelope :=
  endorserTx ⟨[wrapAction (str "ecc") []
    ⟨[pbNs (fun _ => version) ⟨str "ecc", ⟨[⟨str "a"⟩], [], [⟨key, val⟩]⟩⟩]⟩]⟩

/-- Its action. -/
def auctionAction (version : Version) (key val : Bytes) : TransactionAction :=
  wrapAction (str "ecc") [] ⟨[pbNs (fun _ => version) ⟨str "ecc", ⟨[⟨str "a"⟩], [], [⟨key, val⟩]⟩⟩]⟩

theorem envelopeTx_endorserTx (n : ℕ) (t : Transaction) : envelopeTx n (endorserTx t) = some t := by
  rw [envelopeTx, endorserTx, wrapEnvelope, unwrapEnvelope_wrapData]
  rfl

theorem actionReads_auctionAction (version : Version) (key val : Bytes) :
    actionReads (auctionAction version key val) = .ok [(str "ecc.a", version)] :=
  rfl

section
variable {version : Version} {key val name : Bytes} (hkey : key ≠ []) (hval : val ≠ [])
  (hname : eccName (str "ecc") key = some name)
include hkey hval hname

theorem actionWrites_auctionAction : actionWrites (auctionAction version key val) = [(name, val)] := by
  have hns : actionNs (auctionAction version key val) =
      [pbNs (fun _ => version) ⟨str "ecc", ⟨[⟨str "a"⟩], [], [⟨key, val⟩]⟩⟩] := rfl
  have hdecoded : decodedNs (pbNs (fun _ => version) ⟨str "ecc", ⟨[⟨str "a"⟩], [], [⟨key, val⟩]⟩⟩) =
      some (str "ecc", _) := rfl
  rw [actionWrites, hns, List.flatMap_singleton, nsWriteList, hdecoded, Option.elim_some, writeList_ecc]
  simp only [List.map_cons, List.map_nil, List.filterMap_cons, List.filterMap_nil, eccFirstWrite, pbWrite,
    pbField_of_ne_nil hkey, pbField_of_ne_nil hval, hname, List.head?_cons, Option.bind_eq_bind, Option.bind_some,
    Option.pure_def]

variable {L : Ledger} {n : ℕ} (hfresh : fresh L.state ∅ (str "ecc.a", version) = true)
include hfresh

theorem planTx_auctionAction (v : Version) :
    planTx L.state v ∅ [auctionAction version key val] = ⟨[(name, val)], true⟩ := by
  have hreads : [(str "ecc.a", version)].all (fresh L.state ∅) = true := by simpa using hfresh
  simp only [planTx, actionReads_auctionAction, hreads, if_true, actionWrites_auctionAction hkey hval hname]
  rfl

theorem planEnvelope_auctionTx :
    planEnvelope L.state n [0] ∅ (auctionTx version key val, 0) = ⟨[(name, val)], true⟩ := by
  have hskip : ¬([0] : Bytes)[0]? = some 1 := by decide
  rw [planEnvelope, if_neg hskip, auctionTx, envelopeTx_endorserTx, ← auctionAction]
  exact planTx_auctionAction hkey hval hname hfresh ⟨n, 0⟩

/-- The parser gets through the action. -/
theorem parseAction_auctionAction (v : Version) :
    ∃ s, parseAction parsonLibs L.state v ⟨∅, true⟩ (auctionAction version key val) = .ok s := by
  have hlist : readList ⟨[pbNs (fun _ => version) ⟨str "ecc", ⟨[⟨str "a"⟩], [], [⟨key, val⟩]⟩⟩]⟩ =
      .ok [(str "ecc.a", version)] := rfl
  obtain ⟨reads, hreads, hvalid⟩ := (passesReads_iff hlist).mpr (List.forall_mem_singleton.mpr hfresh)
  have hwrites : ∃ w, writeSet L.state v ∅
      ⟨[pbNs (fun _ => version) ⟨str "ecc", ⟨[⟨str "a"⟩], [], [⟨key, val⟩]⟩⟩]⟩ = .ok w := by
    have hns : pbField (str "ecc") = some (str "ecc") := rfl
    have hecc : cstr (str "ecc") = str "ecc" := by decide
    have hlscc : ¬str "ecc" = str "lscc" := by decide
    have hercc : ¬str "ecc" = str "ercc" := by decide
    simp only [writeSet, nsWrites, pbNs, hns, hecc, if_neg hlscc, if_neg hercc, if_true, deref, decodePb, encode, leaving,
      Except.mapError, bind, Except.bind, List.map_cons, List.map_nil, List.foldlM_cons, List.foldlM_nil, eccWrite, pbWrite,
      pbField_of_ne_nil hkey, pbField_of_ne_nil hval, hname, List.head?_cons, pure, Except.pure]
    exact ⟨_, rfl⟩
  obtain ⟨w, hw⟩ := hwrites
  have hunwrap : unwrapAction (auctionAction version key val) = .ok ([], ⟨some (encode
      ⟨[pbNs (fun _ => version) ⟨str "ecc", ⟨[⟨str "a"⟩], [], [⟨key, val⟩]⟩⟩]⟩), some (jsonMarshal okResponse),
      some (str "ecc")⟩) := rfl
  simp only [parseAction, hunwrap, leaving, Except.mapError, bind, Except.bind, decodePb, encode, hreads, hvalid, if_true,
    hw, validateEccTx_okResponse, pure, Except.pure]
  exact ⟨_, rfl⟩

theorem parseBlock_auctionTx (hn : UInt32.ofNat n = L.sequenceNumber + 1) :
    parseBlock parsonLibs L (wrapBlock n [0] [auctionTx version key val]) =
      some (⟨assignAll L.state (insertAll ∅ [(name, val, ⟨n, 0⟩)]), UInt32.ofNat n, L.rootCerts⟩, .success) := by
  have hm : blockMetadata (plainBlock n [0] [auctionTx version key val]) = .ok [0] :=
    blockMetadata_plainBlock n (List.cons_ne_nil _ _) (Nat.le_refl 1)
  have hnum : (plainBlock n [0] [auctionTx version key val]).number = n := rfl
  obtain ⟨s, hs⟩ := parseAction_auctionAction hkey hval hname hfresh ⟨n, 0⟩
  have htx : parseEndorserTransaction parsonLibs L.state (encode ⟨[auctionAction version key val]⟩) ∅ ⟨n, 0⟩ =
      some ⟨.success, s⟩ := by
    simp only [parseEndorserTransaction, encode, List.foldlM_cons, List.foldlM_nil, hs]
    rfl
  have hupdates : s.updates = insertAll ∅ [(name, val, ⟨n, 0⟩)] := by
    have heq := (parseEndorserTransaction_eq rfl htx).1
    rw [planTx_auctionAction hkey hval hname hfresh] at heq
    exact heq
  have hone : processEnvelope parsonLibs L.state n [0] ⟨∅, L.rootCerts⟩ (auctionTx version key val, 0) =
      .ok ⟨insertAll ∅ [(name, val, ⟨n, 0⟩)], L.rootCerts⟩ := by
    have hskip : ¬([0] : Bytes)[0]? = some 1 := by decide
    rw [processEnvelope, if_neg hskip, auctionTx, endorserTx, wrapEnvelope, unwrapEnvelope_wrapData, ← auctionAction, ← hupdates]
    simp [applyPayload, deref, leaving, Except.mapError, bind, Except.bind, htx, pure, Except.pure]
  have hloop : (plainBlock n [0] [auctionTx version key val]).data.zipIdx.foldlM
      (processEnvelope parsonLibs L.state n [0]) ⟨∅, L.rootCerts⟩ =
        .ok ⟨insertAll ∅ [(name, val, ⟨n, 0⟩)], L.rootCerts⟩ := by
    change ([(auctionTx version key val, 0)] : List (Encoded Envelope × ℕ)).foldlM _ _ = _
    rw [List.foldlM_cons, hone]
    rfl
  simp only [parseBlock, wrapBlock, encode, hnum]
  rw [if_pos hn, hm]
  simp only [hloop, commitStateUpdates, if_pos hn, Option.map_some]

end

/-- The record of the auction `a`, as an enclave that hides nothing stores it. -/
def frankAuction (isOpen : Bool) : Bytes :=
  sealWith frankEnclave (frankEnclave.readRand 1) (marshalAuction signedLibc ⟨str "a", isOpen⟩)

/-- The state with the auction, and the same under the keys of Fabric. -/
def createdState : Kvs := assignAll ∅ (insertAll ∅ [(recordName (str "a"), frankAuction true, ⟨2, 0⟩)])

def createdWorld : Kvs := (∅ : Kvs).insert (str "a") (frankAuction true, ⟨2, 0⟩)

def creation : Endorsement Bytes Bool Unit := ⟨frankInvocation "[\"create\",\"a\"]", ∅, ∅⟩

def closing : Endorsement Bytes Bool Unit := ⟨frankInvocation "[\"close\",\"a\"]", createdState, createdWorld⟩

def staleBid : Endorsement Bytes Bool Unit :=
  ⟨frankInvocation "[\"submit\",\"a\",\"b\",\"5\"]", createdState, createdWorld⟩

theorem mirrors_created : Mirrors createdWorld createdState := by
  refine mirrors_empty.insert (.record plainWord_a) (eccName_record plainWord_a) (plainText_sealWith _ _ _)
    (by decide +kernel) (fun k _ hk => ?_)
  rw [createdState, getElem?_assignAll, getElem?_single, if_neg hk, Option.none_or]

theorem recordIs_created : RecordIs frankEnclave (str "a") createdState (some true) := by
  refine @RecordIs.stored _ _ _ frankEnclave _ _ _ _ ⟨2, 0⟩ (frankEnclave.length_readRand 1) ?_
  rw [createdState, getElem?_assignAll, getElem?_single, if_pos rfl, Option.some_or]
  rfl

/-- The transaction of an endorsement that has put something for the auction `a`. -/
theorem heldBy_auctionTx {x : Endorsement Bytes Bool Unit} {op : Operation} {flag : Option Bool} {key val response : Bytes}
    (henclave : x.invocation.enclave = frankEnclave) (hmirrors : Mirrors x.worldState x.seen)
    (hop : x.invocation.operation = some op) (hplain : ∀ w ∈ op.names, PlainWord w) (hname : op.auctionName = str "a")
    (hresponse : (x.simulated nulFree).1 = some (some response)) (hrecord : RecordIs frankEnclave (str "a") x.seen flag)
    (hput : op.planFor signedLibc flag = .put key val) (number : ℕ) :
    x.HeldBy nulFree number (auctionTx (readVersion x.worldState (str "a")) op.target
      (sealWith frankEnclave (frankEnclave.readRand 1) val)) where
  mirrors := hmirrors
  operation := ⟨op, hop, hplain, by rw [hname]; decide⟩
  response := ⟨response, hresponse⟩
  transaction := by
    have hE : SameBuild x.invocation.enclave frankEnclave := by rw [henclave]; exact ⟨rfl, rfl, rfl⟩
    have hkv := x.kvRwSet_of_put hop hresponse hplain hmirrors hE (fun _ _ _ => rfl) (hname ▸ hrecord) hput
    rw [henclave, hname] at hkv
    refine ⟨_, fun _ => Version.zero, [], [], envelopeTx_endorserTx _ _, by simp, by simp, ?_⟩
    rw [hkv]
    rfl

/-- What an endorsement for the auction `a` has come to: its operation, and its transaction. -/
structure Filed (x : Endorsement Bytes Bool Unit) (op : Operation) (e : Encoded Envelope) : Prop where
  build : SameBuild x.invocation.enclave frankEnclave
  operation : x.invocation.operation = some op
  heldBy : ∀ number, x.HeldBy nulFree number e

/-! The three transactions. -/

def creationTx : Encoded Envelope := auctionTx Version.zero (str "a") (frankAuction true)

def closingTx : Encoded Envelope := auctionTx ⟨2, 0⟩ (str "a") (frankAuction false)

def staleBidTx : Encoded Envelope := auctionTx ⟨2, 0⟩ (fabricKey (bidKey (str "a") (str "b"))) (frankRecord "b")

theorem filed_creation : Filed creation (.create (str "a")) creationTx := by
  have hop : creation.invocation.operation = some (.create (str "a")) := by decide +kernel
  refine ⟨⟨rfl, rfl, rfl⟩, hop, fun number => ?_⟩
  exact heldBy_auctionTx rfl mirrors_empty hop (List.forall_mem_singleton.mpr plainWord_a) rfl
    (by decide +kernel : (creation.simulated nulFree).1 = some (some (str "OK")))
    (.absent (ExtTreeMap.getElem?_empty)) rfl number

theorem filed_closing : Filed closing (.close (str "a")) closingTx := by
  have hop : closing.invocation.operation = some (.close (str "a")) := by decide +kernel
  refine ⟨⟨rfl, rfl, rfl⟩, hop, fun number => ?_⟩
  exact heldBy_auctionTx rfl mirrors_created hop (List.forall_mem_singleton.mpr plainWord_a) rfl
    (by decide +kernel : (closing.simulated nulFree).1 = some (some (str "OK"))) recordIs_created rfl number

theorem filed_staleBid : Filed staleBid (.submit (str "a") (str "b") 5) staleBidTx := by
  have hop : staleBid.invocation.operation = some (.submit (str "a") (str "b") 5) := by decide +kernel
  have hplain : ∀ w ∈ (Operation.submit (str "a") (str "b") 5).names, PlainWord w :=
    List.forall_mem_cons.mpr ⟨plainWord_a, List.forall_mem_singleton.mpr plainWord_b⟩
  refine ⟨⟨rfl, rfl, rfl⟩, hop, fun number => ?_⟩
  exact heldBy_auctionTx rfl mirrors_created hop hplain rfl
    (by decide +kernel : (staleBid.simulated nulFree).1 = some (some (str "OK"))) recordIs_created rfl number

/-- A block with a configuration only. -/
def quietBlock (number : ℕ) : OrderedBlock (Endorsement Bytes Bool Unit) := ⟨configBlock number, fun _ => none⟩

theorem quietBlock_data {number : ℕ} {block : Block} (h : (quietBlock number).blockData.decoded = some block) :
    block.number = number ∧ block.data = [configTx] := by
  cases h
  exact ⟨rfl, rfl⟩

theorem quiet_quietBlock (number : ℕ) : Quiet (quietBlock number) := by
  intro block hblock e he
  rw [(quietBlock_data hblock).2, List.mem_singleton] at he
  rw [he, envelopeTx_configTx]

theorem effects_of_quiet {libs : Libs} {L : Ledger} {bs : List (OrderedBlock (Endorsement Bytes Bool Unit))}
    (h : ∀ b ∈ bs, Quiet b) : (turns libs L bs).filterMap Turn.effect = [] := by
  refine List.filterMap_eq_nil_iff.mpr (fun t ht => ?_)
  rw [Turn.effect, outcome_of_quiet libs h ht, if_neg (fun h => Bool.false_ne_true h.1)]

/-- A block with one transaction of the auction. -/
def auctionBlock (number : ℕ) (x : Endorsement Bytes Bool Unit) (e : Encoded Envelope) :
    OrderedBlock (Endorsement Bytes Bool Unit) :=
  ⟨wrapBlock number [0] [e], fun _ => some x⟩

theorem AuctionRun.snoc_auctionBlock {bs : List (OrderedBlock (Endorsement Bytes Bool Unit))} {number : ℕ}
    {x : Endorsement Bytes Bool Unit} {op : Operation} {e : Encoded Envelope}
    (h : AuctionRun nulFree frankEnclave parsonLibs bs) (hfiled : Filed x op e) (hseen : Committed parsonLibs bs x.seen) :
    AuctionRun nulFree frankEnclave parsonLibs (bs ++ [auctionBlock number x e]) := by
  refine h.snoc (fun block hblock p hp => ?_)
  cases hblock
  rw [List.mem_singleton.mp hp]
  exact .endorsed hseen hfiled.build (hfiled.heldBy number)

/-- The effect of a block with a transaction that is accepted. -/
theorem effect_auctionBlock {L L' : Ledger} {number : ℕ} {x : Endorsement Bytes Bool Unit} {op : Operation}
    {e : Encoded Envelope} {p : Bytes × Bytes} (hfiled : Filed x op e)
    (hparse : parseBlock parsonLibs L (wrapBlock number [0] [e]) = some (L', .success))
    (hplan : planEnvelope L.state number [0] ∅ (e, 0) = ⟨[p], true⟩) :
    (turns parsonLibs L [auctionBlock number x e]).filterMap Turn.effect = [op] := by
  have hm : blockMetadata (plainBlock number [0] [e]) = .ok [0] := blockMetadata_plainBlock number (List.cons_ne_nil _ _) (Nat.le_refl 1)
  have hturns : blockTurns L (auctionBlock number x e) = [⟨some x, assignAll L.state ∅, ⟨[p], true⟩⟩] := by
    have hdecoded : (auctionBlock number x e).blockData.decoded = some (plainBlock number [0] [e]) := rfl
    rw [← hplan, blockTurns, hdecoded]
    simp only [hm]
    rfl
  rw [turns_singleton parsonLibs hparse, if_pos rfl, hturns, List.filterMap_cons_some, List.filterMap_nil]
  rw [Turn.effect, if_pos ⟨rfl, List.cons_ne_nil _ _⟩]
  exact hfiled.operation

/-! In the first blocks the auction is created. -/

def creationBlocks : List (OrderedBlock (Endorsement Bytes Bool Unit)) :=
  [quietBlock 0, quietBlock 1] ++ [auctionBlock 2 creation creationTx]

def afterCreation : Ledger := ⟨createdState, 2, ⟨some [], some []⟩⟩

theorem parse_creation : parseBlock parsonLibs { start with sequenceNumber := 1 } (wrapBlock 2 [0] [creationTx]) =
    some (afterCreation, .success) :=
  parseBlock_auctionTx (by decide) (by decide +kernel) (eccName_record plainWord_a) (by decide) rfl

theorem run_creationBlocks : run parsonLibs (creationBlocks.map OrderedBlock.blockData) =
    some (afterCreation, [.success, .success, .success]) := by
  have h0 := parseBlock_configBlock parsonLibs start 0 rfl
  have h1 := parseBlock_configBlock parsonLibs { start with sequenceNumber := UInt32.ofNat 0 } 1 rfl
  refine (exec_cons_eq_some _).mpr ⟨_, _, _, _, h0, (exec_cons_eq_some _).mpr ⟨_, _, _, _, h1, ?_, rfl⟩, rfl⟩
  exact (exec_cons_eq_some _).mpr ⟨_, _, _, _, parse_creation, rfl, rfl⟩

theorem auctionRun_creationBlocks : AuctionRun nulFree frankEnclave parsonLibs creationBlocks := by
  have hquiet : AuctionRun nulFree frankEnclave parsonLibs [quietBlock 0, quietBlock 1] := by
    have hnil : AuctionRun nulFree frankEnclave parsonLibs [] := by
      intro pre b post heq
      exact absurd heq (by simp)
    refine @AuctionRun.append_of_quiet _ _ _ _ _ _ [] [quietBlock 0, quietBlock 1] hnil (fun b hb => ?_)
    simp only [List.mem_cons, List.not_mem_nil, or_false] at hb
    rcases hb with rfl | rfl
    · exact ⟨quiet_quietBlock 0, fun _ => rfl⟩
    · exact ⟨quiet_quietBlock 1, fun _ => rfl⟩
  exact hquiet.snoc_auctionBlock filed_creation ⟨start, Visits.start _ _ _, rfl⟩

theorem exec_firstBlocks_quiet : exec (parseBlock parsonLibs) start
    ([quietBlock 0, quietBlock 1].map OrderedBlock.blockData) =
      some ({ start with sequenceNumber := 1 }, [.success, .success]) := by
  have h0 := parseBlock_configBlock parsonLibs start 0 rfl
  have h1 := parseBlock_configBlock parsonLibs { start with sequenceNumber := UInt32.ofNat 0 } 1 rfl
  exact (exec_cons_eq_some _).mpr ⟨_, _, _, _, h0, (exec_cons_eq_some _).mpr ⟨_, _, _, _, h1, rfl, rfl⟩, rfl⟩

theorem effects_creationBlocks :
    (turns parsonLibs start creationBlocks).filterMap Turn.effect = [.create (str "a")] := by
  have hquiet : ∀ b ∈ [quietBlock 0, quietBlock 1], Quiet b :=
    List.forall_mem_cons.mpr ⟨quiet_quietBlock 0, List.forall_mem_singleton.mpr (quiet_quietBlock 1)⟩
  have hfresh : fresh ({ start with sequenceNumber := 1 } : Ledger).state ∅ (str "ecc.a", Version.zero) = true := by
    decide +kernel
  rw [creationBlocks, turns_append parsonLibs exec_firstBlocks_quiet, List.filterMap_append, effects_of_quiet hquiet,
    List.nil_append]
  exact effect_auctionBlock filed_creation parse_creation
    (planEnvelope_auctionTx (by decide) (by decide +kernel) (eccName_record plainWord_a) hfresh)

theorem committed_created (bs : List (OrderedBlock (Endorsement Bytes Bool Unit))) :
    Committed parsonLibs (creationBlocks ++ bs) createdState := by
  refine ⟨afterCreation, ?_, rfl⟩
  rw [List.map_append]
  exact (Visits.finish _ run_creationBlocks).mono

theorem fresh_created : fresh createdState ∅ (str "ecc.a", ⟨2, 0⟩) = true := by decide +kernel

section
variable {L : Ledger} (hstate : L.state = createdState) (hcerts : L.rootCerts = ⟨some [], some []⟩)
include hstate

/-- The closing that was endorsed behind the creation, in a later block. -/
theorem plan_closing (n : ℕ) : planEnvelope L.state n [0] ∅ (closingTx, 0) =
    ⟨[(recordName (str "a"), frankAuction false)], true⟩ :=
  planEnvelope_auctionTx (by decide) (by decide +kernel) (eccName_record plainWord_a) (hstate ▸ fresh_created)

/-- The state with the auction closed in block `n`. -/
def closedState (n : ℕ) : Kvs :=
  assignAll createdState (insertAll ∅ [(recordName (str "a"), frankAuction false, ⟨n, 0⟩)])

include hcerts in
theorem parse_closing {n : ℕ} (hn : UInt32.ofNat n = L.sequenceNumber+1) :
    parseBlock parsonLibs L (wrapBlock n [0] [closingTx]) =
      some (⟨closedState n, UInt32.ofNat n, ⟨some [], some []⟩⟩, .success) := by
  have h : parseBlock parsonLibs L (wrapBlock n [0] [closingTx]) =
      some (⟨assignAll L.state (insertAll ∅ [(recordName (str "a"), frankAuction false, ⟨n, 0⟩)]), UInt32.ofNat n,
        L.rootCerts⟩, .success) :=
    parseBlock_auctionTx (by decide) (by decide +kernel) (eccName_record plainWord_a) (hstate ▸ fresh_created) hn
  rwa [hstate, hcerts] at h

include hcerts in
theorem effect_closing {n : ℕ} (hn : UInt32.ofNat n = L.sequenceNumber+1) :
    (turns parsonLibs L [auctionBlock n closing closingTx]).filterMap Turn.effect = [.close (str "a")] :=
  effect_auctionBlock filed_closing (parse_closing hstate hcerts hn) (plan_closing hstate n)

end

/-- The auction is closed in the next block. -/
def closingBlocks : List (OrderedBlock (Endorsement Bytes Bool Unit)) :=
  creationBlocks ++ [auctionBlock 3 closing closingTx]

theorem run_closingBlocks : run parsonLibs (closingBlocks.map OrderedBlock.blockData) =
    some (⟨closedState 3, 3, ⟨some [], some []⟩⟩, [.success, .success, .success, .success]) := by
  rw [closingBlocks, List.map_append]
  exact (exec_snoc_eq_some _).mpr ⟨_, _, _, _, run_creationBlocks, parse_closing rfl rfl rfl, rfl⟩

theorem auctionRun_closingBlocks : AuctionRun nulFree frankEnclave parsonLibs closingBlocks := by
  have hseen := committed_created []
  rw [List.append_nil] at hseen
  exact auctionRun_creationBlocks.snoc_auctionBlock filed_closing hseen

theorem effects_closingBlocks : (turns parsonLibs start closingBlocks).filterMap Turn.effect =
    [.create (str "a"), .close (str "a")] := by
  rw [closingBlocks, turns_append parsonLibs run_creationBlocks, List.filterMap_append, effects_creationBlocks]
  exact congrArg ([Operation.create (str "a")] ++ ·) (effect_closing rfl rfl rfl)

theorem mem_closingBlocks {b : OrderedBlock (Endorsement Bytes Bool Unit)} (h : b ∈ closingBlocks) {block : Block}
    (hb : b.blockData.decoded = some block) : block.number < 2^32 ∧ (block.number = 0 → block.data = [configTx]) := by
  simp only [closingBlocks, creationBlocks, List.cons_append, List.nil_append, List.mem_cons, List.not_mem_nil,
    or_false] at h
  rcases h with rfl | rfl | rfl | rfl <;> cases hb
  · exact ⟨by decide, fun _ => rfl⟩
  · exact ⟨by decide, fun _ => rfl⟩
  · exact ⟨by decide, fun h => by cases h⟩
  · exact ⟨by decide, fun h => by cases h⟩

/-- Block 0 has a configuration only. -/
theorem genesisConfigOnly_of_data {bs : List (OrderedBlock (Endorsement Bytes Bool Unit))}
    (h : ∀ b ∈ bs, ∀ block, b.blockData.decoded = some block → block.number = 0 → block.data = [configTx]) :
    GenesisConfigOnly (bs.map OrderedBlock.blockData) :=
  genesisConfigOnly_of_configTx (List.forall_mem_map.mpr h)

theorem auction_life_cycle_created_closed :
    effects (str "a") (turns parsonLibs start closingBlocks) = [.create (str "a"), .close (str "a")] ∧
      ∃ flag, Stage (str "a") flag (effects (str "a") (turns parsonLibs start closingBlocks)) := by
  refine ⟨?_, ?_⟩
  · rw [effects, effects_closingBlocks]
    rfl
  · have h := auction_life_cycle nulFree parsonLibs closingBlocks _ _ roundTrip_plainGcm run_closingBlocks
      (fun b hb block hblock => (mem_closingBlocks hb hblock).1)
      (genesisConfigOnly_of_data (fun b hb block hblock => (mem_closingBlocks hb hblock).2)) auctionRun_closingBlocks
      (by decide)
    exact (h.1 (str "a") plainWord_a (by decide)).1

/-! The counter comes round between the creation and the closing. The closing then gets an earlier
version than the creation has had, and a bid that has seen the open auction passes. -/

def quietBlocks (m k : ℕ) : List (OrderedBlock (Endorsement Bytes Bool Unit)) := (List.range' m k).map quietBlock

theorem map_quietBlocks (m k : ℕ) : (quietBlocks m k).map OrderedBlock.blockData = configBlocks m k := by
  rw [quietBlocks, List.map_map]
  rfl

theorem mem_quietBlocks {m k : ℕ} {b : OrderedBlock (Endorsement Bytes Bool Unit)} (h : b ∈ quietBlocks m k) {block : Block}
    (hb : b.blockData.decoded = some block) : block.number < m+k ∧ block.data = [configTx] := by
  obtain ⟨n, hn, rfl⟩ := List.mem_map.mp h
  obtain ⟨hnumber, hdata⟩ := quietBlock_data hb
  exact ⟨hnumber ▸ (List.mem_range'_1.mp hn).2, hdata⟩

theorem quiet_quietBlocks {m k : ℕ} {b : OrderedBlock (Endorsement Bytes Bool Unit)} (h : b ∈ quietBlocks m k) :
    Quiet b ∧ ∀ i, b.note i = none := by
  obtain ⟨n, -, rfl⟩ := List.mem_map.mp h
  exact ⟨quiet_quietBlock n, fun _ => rfl⟩

/-- The first round, and the first block of the next. -/
def fullRound : List (OrderedBlock (Endorsement Bytes Bool Unit)) :=
  creationBlocks ++ (quietBlocks 3 (2^32-3) ++ quietBlocks 0 1)

def afterRound : Ledger := { afterCreation with sequenceNumber := 0 }

def fullRoundCodes : List RetCode := [.success, .success, .success] ++ (List.replicate (2^32-3) .success ++ [.success])

theorem run_fullRound : run parsonLibs (fullRound.map OrderedBlock.blockData) = some (afterRound, fullRoundCodes) := by
  have hquiet := exec_configBlocks parsonLibs afterCreation 3 (2^32-3) rfl
  have hzero := exec_configBlocks parsonLibs { afterCreation with sequenceNumber := UInt32.ofNat (3+(2^32-3))-1 } 0 1 rfl
  rw [fullRound, List.map_append, List.map_append, map_quietBlocks, map_quietBlocks]
  exact (exec_append_eq_some _).mpr
    ⟨_, _, _, _, run_creationBlocks, (exec_append_eq_some _).mpr ⟨_, _, _, _, hquiet, hzero, rfl⟩, rfl⟩

theorem effects_fullRound : (turns parsonLibs start fullRound).filterMap Turn.effect = [.create (str "a")] := by
  rw [fullRound, turns_append parsonLibs run_creationBlocks, List.filterMap_append, effects_creationBlocks,
    effects_of_quiet (List.forall_mem_append.mpr ⟨fun _ hb => (quiet_quietBlocks hb).1, fun _ hb => (quiet_quietBlocks hb).1⟩),
    List.append_nil]

theorem auctionRun_fullRound : AuctionRun nulFree frankEnclave parsonLibs fullRound := by
  refine auctionRun_creationBlocks.append_of_quiet (fun b hb => ?_)
  rcases List.mem_append.mp hb with hb | hb
  · exact quiet_quietBlocks hb
  · exact quiet_quietBlocks hb

/-- In the second round, the closing and then the bid. -/
def closingRound : List (OrderedBlock (Endorsement Bytes Bool Unit)) := fullRound ++ [auctionBlock 1 closing closingTx]

def lateBlocks : List (OrderedBlock (Endorsement Bytes Bool Unit)) := closingRound ++ [auctionBlock 2 staleBid staleBidTx]

def afterClosing : Ledger := ⟨closedState 1, 1, ⟨some [], some []⟩⟩

theorem run_closingRound : run parsonLibs (closingRound.map OrderedBlock.blockData) =
    some (afterClosing, fullRoundCodes ++ [.success]) := by
  rw [closingRound, List.map_append]
  exact (exec_snoc_eq_some _).mpr ⟨_, _, _, _, run_fullRound, parse_closing rfl rfl rfl, rfl⟩

theorem effects_closingRound : (turns parsonLibs start closingRound).filterMap Turn.effect =
    [.create (str "a"), .close (str "a")] := by
  rw [closingRound, turns_append parsonLibs run_fullRound, List.filterMap_append, effects_fullRound]
  exact congrArg ([Operation.create (str "a")] ++ ·) (effect_closing rfl rfl rfl)

theorem auctionRun_lateBlocks : AuctionRun nulFree frankEnclave parsonLibs lateBlocks := by
  have hseen (bs : List (OrderedBlock (Endorsement Bytes Bool Unit))) :
      Committed parsonLibs (fullRound ++ bs) createdState := by
    rw [fullRound, List.append_assoc]
    exact committed_created _
  have hfull := hseen []
  rw [List.append_nil] at hfull
  exact (auctionRun_fullRound.snoc_auctionBlock filed_closing hfull).snoc_auctionBlock filed_staleBid (hseen _)

/-- A smaller version does not make the read of the bid a stale one. -/
theorem fresh_closed : fresh afterClosing.state ∅ (str "ecc.a", ⟨2, 0⟩) = true := by decide +kernel

theorem eccName_staleBid : eccName (str "ecc") (fabricKey (bidKey (str "a") (str "b"))) =
    some (str "ecc" ++ sgxKey (bidKey (str "a") (str "b"))) := by
  decide +kernel

def staleBidState : Kvs :=
  assignAll afterClosing.state (insertAll ∅ [(str "ecc" ++ sgxKey (bidKey (str "a") (str "b")), frankRecord "b", ⟨2, 0⟩)])

theorem parse_staleBid : parseBlock parsonLibs afterClosing (wrapBlock 2 [0] [staleBidTx]) =
    some (⟨staleBidState, 2, ⟨some [], some []⟩⟩, .success) :=
  parseBlock_auctionTx (by decide +kernel) (by decide +kernel) eccName_staleBid fresh_closed rfl

theorem mem_lateBlocks {b : OrderedBlock (Endorsement Bytes Bool Unit)} (h : b ∈ lateBlocks) {block : Block}
    (hb : b.blockData.decoded = some block) : block.number < 2^32 ∧ (block.number = 0 → block.data = [configTx]) := by
  simp only [lateBlocks, closingRound, fullRound, List.mem_append, List.mem_singleton] at h
  rcases h with ((h | h | h) | rfl) | rfl
  · exact mem_closingBlocks (List.mem_append_left _ h) hb
  · exact ⟨(mem_quietBlocks h hb).1, fun _ => (mem_quietBlocks h hb).2⟩
  · exact ⟨(mem_quietBlocks h hb).1.trans (by decide), fun _ => (mem_quietBlocks h hb).2⟩
  · cases hb
    exact ⟨by decide, fun h => by cases h⟩
  · cases hb
    exact ⟨by decide, fun h => by cases h⟩

/-- Once the counter has come round, a bid that has seen the open auction is committed after the
closing. -/
theorem late_bid_after_round :
    (∃ L codes, run parsonLibs (lateBlocks.map OrderedBlock.blockData) = some (L, codes)) ∧
      (∀ b ∈ lateBlocks, ∀ block, b.blockData.decoded = some block → block.number < 2^32) ∧
      GenesisConfigOnly (lateBlocks.map OrderedBlock.blockData) ∧
      frankEnclave.gcm.RoundTrip ∧ AuctionRun nulFree frankEnclave parsonLibs lateBlocks ∧
      effects (str "a") (turns parsonLibs start lateBlocks) =
        [.create (str "a"), .close (str "a"), .submit (str "a") (str "b") 5] ∧
      ¬∃ flag, Stage (str "a") flag (effects (str "a") (turns parsonLibs start lateBlocks)) := by
  have heffects : effects (str "a") (turns parsonLibs start lateBlocks) =
      [.create (str "a"), .close (str "a"), .submit (str "a") (str "b") 5] := by
    have hbid := effect_auctionBlock filed_staleBid parse_staleBid (planEnvelope_auctionTx (by decide +kernel)
      (by decide +kernel) eccName_staleBid fresh_closed)
    rw [effects, lateBlocks, turns_append parsonLibs run_closingRound, List.filterMap_append, effects_closingRound, hbid]
    rfl
  refine ⟨?_, fun b hb block hblock => (mem_lateBlocks hb hblock).1,
    genesisConfigOnly_of_data (fun b hb block hblock => (mem_lateBlocks hb hblock).2), roundTrip_plainGcm,
    auctionRun_lateBlocks, heffects, ?_⟩
  · rw [lateBlocks, List.map_append]
    exact ⟨_, _, (exec_snoc_eq_some _).mpr ⟨_, _, _, _, run_closingRound, parse_staleBid, rfl⟩⟩
  · rw [heffects]
    rintro ⟨flag, hstage⟩
    generalize hops : ([.create (str "a"), .close (str "a"), .submit (str "a") (str "b") 5] : List Operation) = ops at hstage
    cases hstage with
    | absent => cases hops
    | isOpen h =>
      cases hops
      obtain ⟨_, _, hsubmit⟩ := h _ List.mem_cons_self
      cases hsubmit
    | closed h =>
      have hlast := congrArg List.getLast? hops
      rw [List.getLast?_append] at hlast
      cases hlast

end SecureChaincode
