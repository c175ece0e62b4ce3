import SecureChaincode.Chain
import SecureChaincode.FoldExcept

/-! The two ecalls that hand a block to the ledger enclave, and what one of them leaves behind
when it fails: state and counter stay, the certificates it came by until then do not go away
again. -/
namespace SecureChaincode

/-- The result of `init_ledger` is not looked at. -/
def ecallJoinChannel (libs : Libs) (L : Ledger) (genesis : Encoded Block) : Option (Ledger × RetCode) :=
  parseBlock libs (initLedger L) genesis

def ecallNextBlock (libs : Libs) (L : Ledger) (block : Encoded Block) : Option (Ledger × RetCode) :=
  parseBlock libs L block

inductive BlockCall
  | joinChannel (genesis : Encoded Block)
  | nextBlock (block : Encoded Block)

def BlockCall.block : BlockCall → Encoded Block
  | .joinChannel genesis => genesis
  | .nextBlock block => block

/-- The stores that the certificates of the block go to. -/
def BlockCall.stores (L : Ledger) : BlockCall → RootCerts
  | .joinChannel _ => (initLedger L).rootCerts
  | .nextBlock _ => L.rootCerts

def blockCall (libs : Libs) (L : Ledger) : BlockCall → Option (Ledger × RetCode)
  | .joinChannel genesis => ecallJoinChannel libs L genesis
  | .nextBlock block => ecallNextBlock libs L block

section
variable {σ γ ι κ : Type} (get : σ → γ) (op : γ → κ → γ)

/-- What a computation takes up before it ends, and whether it runs to its end. Nothing is said
about a fault. -/
def TakesUp (s : γ) (plan : List κ × Bool) : Leaving σ σ → Prop
  | .ok t => plan.2 = true ∧ get t = plan.1.foldl op s
  | .error (.decoding, t) => plan.2 = false ∧ get t = plan.1.foldl op s
  | .error (.fault, _) => True

/-- The items of a loop, as far as it gets. -/
def collect (g : ι → List κ × Bool) : List ι → List κ × Bool
  | [] => ([], true)
  | i :: is => if (g i).2 then ((g i).1 ++ (collect g is).1, (collect g is).2) else ((g i).1, false)

theorem TakesUp.foldlM {f : σ → ι → Leaving σ σ} {g : ι → List κ × Bool}
    (h : ∀ s i, TakesUp get op (get s) (g i) (f s i)) (s : σ) (is : List ι) :
    TakesUp get op (get s) (collect g is) (is.foldlM f s) := by
  induction is generalizing s with
  | nil => exact ⟨rfl, rfl⟩
  | cons i is ih =>
    rw [List.foldlM_cons, collect]
    have hi := h s i
    cases hf : f s i with
    | error e =>
      obtain ⟨x, t⟩ := e
      rw [hf] at hi
      cases x with
      | fault => trivial
      | decoding =>
        rw [if_neg (by rw [hi.1]; decide)]
        exact ⟨rfl, hi.2⟩
    | ok t =>
      rw [hf] at hi
      have ht := ih t
      rw [hi.2] at ht
      rw [if_pos hi.1]
      -- the loop goes on from what the first round has taken up
      show TakesUp get op (get s) _ (is.foldlM f t)
      cases hr : is.foldlM f t with
      | ok u =>
        rw [hr] at ht
        exact ⟨ht.1, by rw [List.foldl_append]; exact ht.2⟩
      | error e =>
        obtain ⟨x, u⟩ := e
        rw [hr] at ht
        cases x with
        | fault => trivial
        | decoding => exact ⟨ht.1, by rw [List.foldl_append]; exact ht.2⟩

/-- A message is decoded on the way. -/
theorem TakesUp.leaving_bind {α : Type} {s : σ} {plan : List κ × Bool} {p : Parse α} {f : α → Leaving σ σ}
    (hd : p = .error .decoding → plan = ([], false))
    (hf : ∀ a, p = .ok a → TakesUp get op (get s) plan (f a)) :
    TakesUp get op (get s) plan (leaving s p >>= f) := by
  cases p with
  | ok a => exact hf a rfl
  | error x =>
    cases x with
    | fault => trivial
    | decoding =>
      rw [hd rfl]
      exact ⟨rfl, rfl⟩

end

/-- A certificate for one of the two stores. -/
abbrev RootCert := CertStore × Bytes

theorem mem_addPem_self (pem : Bytes) (l : List Bytes) : pem ∈ addPem pem l := by
  rw [addPem]
  split_ifs with h
  · exact h
  · exact List.mem_append_right l (List.mem_singleton_self pem)

theorem mem_addPem_of_mem {p : Bytes} {l : List Bytes} (h : p ∈ l) (pem : Bytes) : p ∈ addPem pem l := by
  rw [addPem]
  split_ifs
  · exact h
  · exact List.mem_append_left _ h

def addRootCert (certs : RootCerts) (c : RootCert) : RootCerts :=
  match c.1 with
  | .orderer => { certs with orderer := certs.orderer.map (addPem c.2) }
  | .apps => { certs with apps := certs.apps.map (addPem c.2) }
  | .null => certs

/-- Is the certificate in its store? -/
def Stored (certs : RootCerts) (c : RootCert) : Prop :=
  match c.1 with
  | .orderer => ∀ l, certs.orderer = some l → c.2 ∈ l
  | .apps => ∀ l, certs.apps = some l → c.2 ∈ l
  | .null => True

section
variable (libs : Libs)

/-! The certificates of a block, in the order in which the parser comes by them and as far as
it gets. -/

def pemOffer (store : CertStore) (pem : Bytes) : List RootCert × Bool :=
  (if libs.pemReadX509 pem then [(store, pem)] else [], true)

def valueOffers (store : CertStore) (value : Option (Encoded MSPConfig)) : List RootCert × Bool :=
  match value.bind (fun v => v.decoded) with
  | none => ([], false)
  | some mspConfig =>
    match mspConfig.config.bind (fun c => c.decoded) with
    | none => ([], false)
    | some fabricMspConfig => collect (pemOffer libs store) fabricMspConfig.rootCerts

def groupOffers (g : ChannelGroup) : List RootCert × Bool :=
  let store := selectStore (cstr (g.key.getD []))
  collect (fun org => collect (valueOffers libs store) org.values) g.groups

def configOffers (config : Encoded ConfigEnvelope) : List RootCert × Bool :=
  match config.decoded with
  | none => ([], false)
  | some configEnvelope => collect (groupOffers libs) configEnvelope.channelGroups

/-- A configuration that does not decode to its end is left at that point, without an error. -/
def payloadOffers (number : ℕ) (chdr : ChannelHeader) (payload : Payload) : List RootCert × Bool :=
  if chdr.type = 1 ∧ number = 0 then
    match payload.data with
    | none => ([], true)
    | some data => ((configOffers libs data.configEnvelope).1, true)
  else ([], true)

def envelopeOffers (number : ℕ) (txFilter : Bytes) (e : Encoded Envelope × ℕ) : List RootCert × Bool :=
  if txFilter[e.2]? = some 1 then ([], true)
  else
    match unwrapEnvelope number e.1 with
    | .error _ => ([], false)
    | .ok (chdr, payload) => payloadOffers libs number chdr payload

/-- Nothing of a block that fails before the loop over its envelopes is taken up. -/
def blockOffers (sequenceNumber : UInt32) (blockData : Encoded Block) : List RootCert :=
  match blockData.decoded with
  | none => []
  | some block =>
    if UInt32.ofNat block.number = sequenceNumber + 1 then
      match blockMetadata block with
      | .error _ => []
      | .ok txFilter => (collect (envelopeOffers libs block.number txFilter) block.data.zipIdx).1
    else []

variable {libs}

theorem storeRootCert_takesUp (store : CertStore) (certs : RootCerts) (pem : Bytes) :
    TakesUp id addRootCert certs (pemOffer libs store pem) (storeRootCert libs store certs pem) := by
  rw [storeRootCert.eq_def, pemOffer]
  by_cases hpem : libs.pemReadX509 pem = true
  · rw [if_pos hpem, if_pos hpem]
    cases store with
    | null => trivial
    | orderer =>
      cases ho : certs.orderer with
      | none => trivial
      | some l =>
        refine ⟨rfl, ?_⟩
        simp [addRootCert, addPem, ho]
    | apps =>
      cases ha : certs.apps with
      | none => trivial
      | some l =>
        refine ⟨rfl, ?_⟩
        simp [addRootCert, addPem, ha]
  · rw [if_neg hpem, if_neg hpem]
    exact ⟨rfl, rfl⟩

/-- The message behind a pointer does not decode. -/
theorem decodePb_deref_decoding {α : Type} {p : Option (Encoded α)}
    (h : (do decodePb (← deref p)) = .error Exit.decoding) : p.bind (fun e => e.decoded) = none := by
  cases p with
  | none => rfl
  | some e =>
    cases he : e.decoded with
    | none => rw [Option.bind_some, he]
    | some m =>
      simp [deref, decodePb, he, bind, Except.bind] at h

theorem decodePb_deref_ok {α : Type} {p : Option (Encoded α)} {m : α}
    (h : (do decodePb (← deref p)) = Except.ok m) : p.bind (fun e => e.decoded) = some m := by
  obtain ⟨e, he, hm⟩ := bind_eq_ok h
  rw [deref_eq_ok he, Option.bind_some, decodePb_eq_ok hm]

theorem parseConfigValue_takesUp (store : CertStore) (certs : RootCerts) (value : Option (Encoded MSPConfig)) :
    TakesUp id addRootCert certs (valueOffers libs store value) (parseConfigValue libs store certs value) := by
  rw [parseConfigValue, valueOffers]
  apply TakesUp.leaving_bind
  · intro hv
    rw [decodePb_deref_decoding hv]
  · intro mspConfig hv
    rw [decodePb_deref_ok hv]
    dsimp only
    apply TakesUp.leaving_bind
    · intro hm
      rw [decodePb_deref_decoding hm]
    · intro fabricMspConfig hm
      rw [decodePb_deref_ok hm]
      exact TakesUp.foldlM id addRootCert (storeRootCert_takesUp store) certs fabricMspConfig.rootCerts

theorem parseConfigGroup_takesUp (certs : RootCerts) (g : ChannelGroup) :
    TakesUp id addRootCert certs (groupOffers libs g) (parseConfigGroup libs certs g) := by
  rw [parseConfigGroup, groupOffers]
  apply TakesUp.leaving_bind
  · intro hg
    cases hk : g.key with
    | none =>
      rw [hk] at hg
      cases hg
    | some key =>
      rw [hk] at hg
      cases hg
  · intro key hg
    rw [deref_eq_ok hg]
    apply TakesUp.foldlM id addRootCert
    intro certs org
    exact TakesUp.foldlM id addRootCert (parseConfigValue_takesUp _) certs org.values

theorem parseConfig_takesUp (config : Encoded ConfigEnvelope) (certs : RootCerts) :
    TakesUp id addRootCert certs (configOffers libs config) (parseConfig libs config certs) := by
  rw [parseConfig, configOffers]
  apply TakesUp.leaving_bind
  · intro hc
    cases hd : config.decoded with
    | none => rfl
    | some m => simp [decodePb, hd] at hc
  · intro configEnvelope hc
    rw [decodePb_eq_ok hc]
    exact TakesUp.foldlM id addRootCert parseConfigGroup_takesUp certs configEnvelope.channelGroups

theorem leaving_deref_some {σ α β : Type} (s : σ) (a : α) (f : α → Leaving σ β) :
    (leaving s (deref (some a)) >>= f) = f a := rfl

theorem applyPayload_takesUp (state : Kvs) (version : Version) (s : BlockPhase) (chdr : ChannelHeader)
    (payload : Payload) :
    TakesUp BlockPhase.rootCerts addRootCert s.rootCerts (payloadOffers libs version.blockNum chdr payload)
      (applyPayload libs state version s chdr payload) := by
  rw [applyPayload, payloadOffers]
  by_cases hconfig : chdr.type = 1
  · rw [if_pos hconfig]
    by_cases hzero : version.blockNum = 0
    · rw [if_pos hzero, if_pos ⟨hconfig, hzero⟩]
      cases payload.data with
      | none => trivial
      | some data =>
        have hc := @parseConfig_takesUp libs data.configEnvelope s.rootCerts
        -- whatever way the parser of the configuration takes out, its certificates stay
        rw [leaving_deref_some]
        cases hr : parseConfig libs data.configEnvelope s.rootCerts with
        | ok certs =>
          rw [hr] at hc
          exact ⟨rfl, hc.2⟩
        | error x =>
          obtain ⟨x, certs⟩ := x
          rw [hr] at hc
          cases x with
          | fault => trivial
          | decoding => exact ⟨rfl, hc.2⟩
    · rw [if_neg hzero, if_neg (fun h => hzero h.2)]
      exact ⟨rfl, rfl⟩
  · rw [if_neg hconfig, if_neg (fun h => hconfig h.1)]
    by_cases htype : chdr.type = 3
    · rw [if_pos htype]
      cases payload.data with
      | none => trivial
      | some data =>
        rw [leaving_deref_some]
        cases parseEndorserTransaction libs state data.transaction s.updates version with
        | none => trivial
        | some r => exact ⟨rfl, rfl⟩
    · rw [if_neg htype]
      exact ⟨rfl, rfl⟩

theorem processEnvelope_takesUp (state : Kvs) (number : ℕ) (txFilter : Bytes) (s : BlockPhase)
    (e : Encoded Envelope × ℕ) :
    TakesUp BlockPhase.rootCerts addRootCert s.rootCerts (envelopeOffers libs number txFilter e)
      (processEnvelope libs state number txFilter s e) := by
  rw [processEnvelope, envelopeOffers]
  by_cases hskip : txFilter[e.2]? = some 1
  · rw [if_pos hskip, if_pos hskip]
    exact ⟨rfl, rfl⟩
  · rw [if_neg hskip, if_neg hskip]
    apply TakesUp.leaving_bind
    · intro hu
      rw [hu]
    · rintro ⟨chdr, payload⟩ hu
      rw [hu]
      exact applyPayload_takesUp state ⟨number, e.2⟩ s chdr payload

/-- The stores after a call: what they had at its start and what the parser came by. -/
theorem parseBlock_rootCerts {L L' : Ledger} {blockData : Encoded Block} {code : RetCode}
    (h : parseBlock libs L blockData = some (L', code)) :
    L'.rootCerts = (blockOffers libs L.sequenceNumber blockData).foldl addRootCert L.rootCerts := by
  rw [parseBlock] at h
  rw [blockOffers]
  cases hb : blockData.decoded with
  | none =>
    rw [hb] at h
    cases h
    rfl
  | some block =>
    rw [hb] at h
    dsimp only at h ⊢
    by_cases hseq : UInt32.ofNat block.number = L.sequenceNumber + 1
    · rw [if_pos hseq] at h ⊢
      cases hm : blockMetadata block with
      | error x =>
        rw [hm] at h
        cases x with
        | fault => cases h
        | decoding =>
          cases h
          rfl
      | ok txFilter =>
        rw [hm] at h
        dsimp only at h ⊢
        have hloop := TakesUp.foldlM BlockPhase.rootCerts addRootCert
          (@processEnvelope_takesUp libs L.state block.number txFilter) ⟨∅, L.rootCerts⟩ block.data.zipIdx
        cases hf : block.data.zipIdx.foldlM (processEnvelope libs L.state block.number txFilter)
            ⟨∅, L.rootCerts⟩ with
        | error x =>
          obtain ⟨x, s⟩ := x
          rw [hf] at h hloop
          cases x with
          | fault => cases h
          | decoding =>
            cases h
            exact hloop.2
        | ok s =>
          rw [hf] at h hloop
          simp only [commitStateUpdates, if_pos hseq, Option.map_some] at h
          cases h
          exact hloop.2
    · rw [if_neg hseq] at h ⊢
      cases h
      rfl

end

theorem stored_addRootCert (certs : RootCerts) (c : RootCert) : Stored (addRootCert certs c) c := by
  obtain ⟨store, pem⟩ := c
  cases store with
  | null => trivial
  | orderer =>
    intro l hl
    obtain ⟨l', -, rfl⟩ := Option.map_eq_some_iff.mp hl
    exact mem_addPem_self pem l'
  | apps =>
    intro l hl
    obtain ⟨l', -, rfl⟩ := Option.map_eq_some_iff.mp hl
    exact mem_addPem_self pem l'

theorem Stored.addRootCert {certs : RootCerts} {c : RootCert} (h : Stored certs c) (d : RootCert) :
    Stored (addRootCert certs d) c := by
  obtain ⟨store, pem⟩ := c
  obtain ⟨store', pem'⟩ := d
  cases store with
  | null => trivial
  | orderer =>
    intro l hl
    cases store' with
    | orderer =>
      obtain ⟨l', hl', rfl⟩ := Option.map_eq_some_iff.mp hl
      exact mem_addPem_of_mem (h l' hl') pem'
    | apps => exact h l hl
    | null => exact h l hl
  | apps =>
    intro l hl
    cases store' with
    | apps =>
      obtain ⟨l', hl', rfl⟩ := Option.map_eq_some_iff.mp hl
      exact mem_addPem_of_mem (h l' hl') pem'
    | orderer => exact h l hl
    | null => exact h l hl

theorem Stored.foldl {certs : RootCerts} {c : RootCert} (h : Stored certs c) (cs : List RootCert) :
    Stored (cs.foldl SecureChaincode.addRootCert certs) c := by
  induction cs generalizing certs with
  | nil => exact h
  | cons d cs ih => exact ih (h.addRootCert d)

theorem stored_foldl {certs : RootCerts} {cs : List RootCert} {c : RootCert} (h : c ∈ cs) :
    Stored (cs.foldl addRootCert certs) c := by
  induction cs generalizing certs with
  | nil => cases h
  | cons d cs ih =>
    rcases List.mem_cons.mp h with rfl | h
    · exact (stored_addRootCert certs c).foldl cs
    · exact ih h

theorem map_addPem_eq_self {o : Option (List Bytes)} {pem : Bytes} (h : ∀ l, o = some l → pem ∈ l) :
    o.map (addPem pem) = o := by
  cases o with
  | none => rfl
  | some l => rw [Option.map_some, addPem, if_pos (h l rfl)]

theorem Stored.addRootCert_eq_self {certs : RootCerts} {c : RootCert} (h : Stored certs c) :
    SecureChaincode.addRootCert certs c = certs := by
  obtain ⟨store, pem⟩ := c
  cases store with
  | null => rfl
  | orderer => rw [SecureChaincode.addRootCert, map_addPem_eq_self h]
  | apps => rw [SecureChaincode.addRootCert, map_addPem_eq_self h]

/-- Adding certificates changes nothing exactly when they are all there. -/
theorem foldl_addRootCert_eq_self_iff {certs : RootCerts} {cs : List RootCert} :
    cs.foldl addRootCert certs = certs ↔ ∀ c ∈ cs, Stored certs c := by
  constructor
  · intro h c hc
    rw [← h]
    exact stored_foldl hc
  · intro h
    induction cs with
    | nil => rfl
    | cons c cs ih =>
      rw [List.foldl_cons, (h c List.mem_cons_self).addRootCert_eq_self]
      exact ih (fun d hd => h d (List.mem_cons_of_mem c hd))

/-- The call leaves the stores as they are: `ecall_join_channel` has filled its new stores with
what the old ones had, `ecall_next_block` has come by no certificate that is not there. -/
def StoresKept (libs : Libs) (L : Ledger) : BlockCall → Prop
  | .joinChannel genesis =>
    (blockOffers libs L.sequenceNumber genesis).foldl addRootCert ⟨some [], some []⟩ = L.rootCerts
  | .nextBlock block => ∀ c ∈ blockOffers libs L.sequenceNumber block, Stored L.rootCerts c

theorem collect_fst_eq_nil {ι κ : Type} {g : ι → List κ × Bool} (h : ∀ i, (g i).1 = []) (is : List ι) :
    (collect g is).1 = [] := by
  induction is with
  | nil => rfl
  | cons i is ih =>
    rw [collect]
    split_ifs
    · rw [h, ih, List.append_nil]
    · exact h i

/-- Only the genesis block brings certificates. -/
theorem envelopeOffers_of_ne_zero (libs : Libs) {number : ℕ} (hn : number ≠ 0) (txFilter : Bytes)
    (e : Encoded Envelope × ℕ) : (envelopeOffers libs number txFilter e).1 = [] := by
  rw [envelopeOffers]
  split_ifs
  · rfl
  cases unwrapEnvelope number e.1 with
  | error x => rfl
  | ok r =>
    dsimp only
    rw [payloadOffers, if_neg (fun h => hn h.2)]

theorem storesKept_past_genesis (libs : Libs) {L : Ledger} (hL : L.sequenceNumber ≠ -1) (block : Encoded Block) :
    StoresKept libs L (.nextBlock block) := by
  intro c hc
  rw [blockOffers] at hc
  cases hb : block.decoded with
  | none =>
    rw [hb] at hc
    cases hc
  | some b =>
    rw [hb] at hc
    dsimp only at hc
    split_ifs at hc with hseq
    · have hn : b.number ≠ 0 := by
        intro hz
        rw [hz] at hseq
        apply hL
        rw [← UInt32.add_sub_cancel L.sequenceNumber 1, ← hseq]
        rfl
      cases hm : blockMetadata b with
      | error x =>
        rw [hm] at hc
        cases hc
      | ok txFilter =>
        rw [hm] at hc
        dsimp only at hc
        rw [collect_fst_eq_nil (envelopeOffers_of_ne_zero libs hn txFilter)] at hc
        cases hc
    · cases hc

/-- All that a failed call does. -/
theorem blockCall_failed {libs : Libs} {L L' : Ledger} {call : BlockCall} {code : RetCode}
    (h : blockCall libs L call = some (L', code)) (hfail : code ≠ .success) :
    L' = { L with rootCerts :=
      (blockOffers libs L.sequenceNumber call.block).foldl addRootCert (call.stores L) } := by
  have hparse : parseBlock libs { L with rootCerts := call.stores L } call.block = some (L', code) := by
    cases call with
    | joinChannel genesis => exact h
    | nextBlock block => exact h
  have hcerts := parseBlock_rootCerts hparse
  rcases parseBlock_cases hparse with ⟨hok, -⟩ | ⟨-, hstate, hseq⟩
  · exact absurd hok hfail
  obtain ⟨state, sequenceNumber, certs⟩ := L'
  cases hstate
  cases hseq
  cases hcerts
  rfl

theorem ledger_with_rootCerts_eq_iff (L : Ledger) (certs : RootCerts) :
    { L with rootCerts := certs } = L ↔ certs = L.rootCerts := by
  obtain ⟨state, sequenceNumber, certs'⟩ := L
  simp

theorem storesKept_iff (libs : Libs) (L : Ledger) (call : BlockCall) :
    StoresKept libs L call ↔
      (blockOffers libs L.sequenceNumber call.block).foldl addRootCert (call.stores L) = L.rootCerts := by
  cases call with
  | joinChannel genesis => rfl
  | nextBlock block => exact foldl_addRootCert_eq_self_iff.symm

/-- Past the genesis block, a call of `ecall_next_block` that fails changes nothing. -/
theorem failed_next_block_past_genesis {libs : Libs} {L L' : Ledger} {block : Encoded Block} {code : RetCode}
    (h : ecallNextBlock libs L block = some (L', code)) (hfail : code ≠ .success)
    (hL : L.sequenceNumber ≠ -1) : L' = L := by
  have hcall : blockCall libs L (.nextBlock block) = some (L', code) := h
  rw [blockCall_failed hcall hfail, ledger_with_rootCerts_eq_iff, ← storesKept_iff]
  exact storesKept_past_genesis libs hL block

/-- A call that fails leaves state and counter, and leaves everything exactly when it leaves
the stores. -/
theorem failed_call_unchanged_iff (libs : Libs) (L L' : Ledger) (call : BlockCall) (code : RetCode)
    (h : blockCall libs L call = some (L', code)) (hfail : code ≠ .success) :
    L'.state = L.state ∧ L'.sequenceNumber = L.sequenceNumber ∧ (L' = L ↔ StoresKept libs L call) := by
  rw [blockCall_failed h hfail, ledger_with_rootCerts_eq_iff, storesKept_iff]
  exact ⟨rfl, rfl, Iff.rfl⟩

/-- Every text is a certificate. -/
def readingLibs : Libs := ⟨fun _ => true, parsonGetString signedLibc []⟩

/-- A configuration with one certificate of the orderer. -/
def ordererTx : Encoded Envelope :=
  wrapData 1 ⟨encode ⟨[⟨some (str "Orderer"), [⟨[some (encode ⟨some (encode ⟨[str "pem"]⟩)⟩)]⟩]⟩]⟩, garbled⟩

def certified : Ledger := { start with rootCerts := ⟨some [str "pem"], some []⟩ }

/-- The genesis block fails behind its configuration, whose certificate is there already. -/
theorem certified_ledger_unchanged :
    ∃ L', blockCall readingLibs certified (.nextBlock (wrapBlock 0 [0, 0] [ordererTx, garbled])) =
        some (L', .errorDecoding) ∧
      blockOffers readingLibs certified.sequenceNumber (wrapBlock 0 [0, 0] [ordererTx, garbled]) =
        [(.orderer, str "pem")] ∧ L' = certified := by
  have h : blockCall readingLibs certified (.nextBlock (wrapBlock 0 [0, 0] [ordererTx, garbled])) =
      some (certified, .errorDecoding) := rfl
  have hoffers : blockOffers readingLibs certified.sequenceNumber (wrapBlock 0 [0, 0] [ordererTx, garbled]) =
      [(.orderer, str "pem")] := rfl
  refine ⟨certified, h, hoffers, ?_⟩
  apply (failed_call_unchanged_iff readingLibs certified certified _ _ h (by decide)).2.2.mpr
  intro c hc
  rw [hoffers, List.mem_singleton] at hc
  rw [hc]
  intro l hl
  cases hl
  exact List.mem_singleton_self _

/-- After a failed `ecall_join_channel` the certificates of the channel are gone; after a failed
`ecall_next_block` those of the rejected genesis block are there. -/
theorem failed_calls_change_stores :
    (∃ L L' codes, exec (blockCall readingLibs) Ledger.fresh [.joinChannel (wrapBlock 0 [] [ordererTx])] =
          some (L, codes) ∧
        L.rootCerts = ⟨some [str "pem"], some []⟩ ∧
        blockCall readingLibs L (.joinChannel garbled) = some (L', .errorDecoding) ∧
        L'.rootCerts = ⟨some [], some []⟩) ∧
      ∃ L L' codes, exec (blockCall readingLibs) Ledger.fresh [.joinChannel garbled] = some (L, codes) ∧
        L.rootCerts = ⟨some [], some []⟩ ∧
        blockCall readingLibs L (.nextBlock (wrapBlock 0 [] [ordererTx, garbled])) = some (L', .errorDecoding) ∧
        L'.rootCerts = ⟨some [str "pem"], some []⟩ := by
  refine ⟨⟨_, _, _, rfl, rfl, rfl, rfl⟩, ⟨_, _, _, rfl, rfl, rfl, rfl⟩⟩

end SecureChaincode
