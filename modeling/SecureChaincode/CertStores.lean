import SecureChaincode.FoldExcept
import SecureChaincode.ParseBlock

/-! The two root certificate stores exist from `init_ledger` on. What `parse_block` puts into
its update map, and how it returns, does not depend on the certificates in them. -/
namespace SecureChaincode

def HasStores (certs : RootCerts) : Prop := certs.orderer.isSome ∧ certs.apps.isSome

def BothStores (certs certs' : RootCerts) : Prop := HasStores certs ∧ HasStores certs'

/-- Early exits of the same kind. -/
def SameExit {σ : Type} (R : σ → σ → Prop) (x y : Exit × σ) : Prop := x.1 = y.1 ∧ R x.2 y.2

theorem leaving_rel {σ α : Type} {R : σ → σ → Prop} {s t : σ} (h : R s t) (p : Parse α) :
    LiftRel (SameExit R) Eq (leaving s p) (leaving t p) := by
  cases p with
  | ok a => exact .ok rfl
  | error e => exact .error ⟨rfl, h⟩

theorem storeRootCert_rel (libs : Libs) (store : CertStore) (certs certs' : RootCerts) (pem : Bytes)
    (h : BothStores certs certs') :
    LiftRel (SameExit BothStores) BothStores (storeRootCert libs store certs pem)
      (storeRootCert libs store certs' pem) := by
  obtain ⟨orderer, apps⟩ := certs
  obtain ⟨orderer', apps'⟩ := certs'
  obtain ⟨⟨ho, ha⟩, ho', ha'⟩ := h
  obtain ⟨l, rfl⟩ := Option.isSome_iff_exists.mp ho
  obtain ⟨l', rfl⟩ := Option.isSome_iff_exists.mp ho'
  obtain ⟨m, rfl⟩ := Option.isSome_iff_exists.mp ha
  obtain ⟨m', rfl⟩ := Option.isSome_iff_exists.mp ha'
  unfold storeRootCert
  by_cases hpem : libs.pemReadX509 pem = true
  · rw [if_pos hpem, if_pos hpem]
    cases store with
    | orderer => exact .ok ⟨⟨rfl, rfl⟩, rfl, rfl⟩
    | apps => exact .ok ⟨⟨rfl, rfl⟩, rfl, rfl⟩
    | null => exact .error ⟨rfl, ⟨rfl, rfl⟩, rfl, rfl⟩
  · rw [if_neg hpem, if_neg hpem]
    exact .ok ⟨⟨rfl, rfl⟩, rfl, rfl⟩

theorem parseConfigValue_rel (libs : Libs) (store : CertStore) (certs certs' : RootCerts)
    (value : Option (Encoded MSPConfig)) (h : BothStores certs certs') :
    LiftRel (SameExit BothStores) BothStores (parseConfigValue libs store certs value)
      (parseConfigValue libs store certs' value) := by
  apply (leaving_rel h _).bind
  rintro mspConfig _ rfl
  apply (leaving_rel h _).bind
  rintro fabricMspConfig _ rfl
  exact LiftRel.foldlM (storeRootCert_rel libs store) _ h

theorem parseConfigGroup_rel (libs : Libs) (certs certs' : RootCerts) (g : ChannelGroup)
    (h : BothStores certs certs') :
    LiftRel (SameExit BothStores) BothStores (parseConfigGroup libs certs g)
      (parseConfigGroup libs certs' g) := by
  apply (leaving_rel h _).bind
  rintro key _ rfl
  apply LiftRel.foldlM _ _ h
  intro certs certs' org h
  exact LiftRel.foldlM (parseConfigValue_rel libs _) _ h

theorem parseConfig_rel (libs : Libs) (config : Encoded ConfigEnvelope) {certs certs' : RootCerts}
    (h : BothStores certs certs') :
    LiftRel (SameExit BothStores) BothStores (parseConfig libs config certs)
      (parseConfig libs config certs') := by
  apply (leaving_rel h _).bind
  rintro configEnvelope _ rfl
  exact LiftRel.foldlM (parseConfigGroup_rel libs) _ h

/-- The same updates, and stores on both sides. -/
def SamePhase (s t : BlockPhase) : Prop :=
  s.updates = t.updates ∧ BothStores s.rootCerts t.rootCerts

theorem applyPayload_rel (libs : Libs) (state : Kvs) (version : Version) {s t : BlockPhase}
    (chdr : ChannelHeader) (payload : Payload) (h : SamePhase s t) :
    LiftRel (SameExit SamePhase) SamePhase (applyPayload libs state version s chdr payload)
      (applyPayload libs state version t chdr payload) := by
  rw [applyPayload, applyPayload]
  by_cases hconfig : chdr.type = 1
  · rw [if_pos hconfig, if_pos hconfig]
    by_cases hzero : version.blockNum = 0
    · rw [if_pos hzero, if_pos hzero]
      apply (leaving_rel h _).bind
      rintro data _ rfl
      have hc := parseConfig_rel libs data.configEnvelope h.2
      cases hp : parseConfig libs data.configEnvelope s.rootCerts with
      | ok certs =>
        rw [hp] at hc
        obtain ⟨certs', hq, hb⟩ := hc.eq_ok
        rw [hq]
        exact .ok ⟨h.1, hb⟩
      | error x =>
        rw [hp] at hc
        obtain ⟨x, certs⟩ := x
        cases hq : parseConfig libs data.configEnvelope t.rootCerts with
        | ok certs' =>
          rw [hq] at hc
          cases hc
        | error y =>
          rw [hq] at hc
          obtain ⟨y, certs'⟩ := y
          cases hc with
          | error hxy =>
            obtain ⟨rfl, hb⟩ := hxy
            -- a configuration that does not decode is dropped, a fault is a fault
            cases x with
            | decoding => exact .ok ⟨h.1, hb⟩
            | fault => exact .error ⟨rfl, h.1, hb⟩
    · rw [if_neg hzero, if_neg hzero]
      exact .ok h
  rw [if_neg hconfig, if_neg hconfig]
  by_cases htype : chdr.type = 3
  · rw [if_pos htype, if_pos htype]
    apply (leaving_rel h _).bind
    rintro data _ rfl
    rw [h.1]
    cases parseEndorserTransaction libs state data.transaction t.updates version with
    | none => exact .error ⟨rfl, h⟩
    | some r => exact .ok ⟨rfl, h.2⟩
  · rw [if_neg htype, if_neg htype]
    exact .ok h

theorem processEnvelope_rel (libs : Libs) (state : Kvs) (number : ℕ) (txFilter : Bytes)
    (s t : BlockPhase) (e : Encoded Envelope × ℕ) (h : SamePhase s t) :
    LiftRel (SameExit SamePhase) SamePhase (processEnvelope libs state number txFilter s e)
      (processEnvelope libs state number txFilter t e) := by
  rw [processEnvelope, processEnvelope]
  by_cases hskip : txFilter[e.2]? = some 1
  · rw [if_pos hskip, if_pos hskip]
    exact .ok h
  · rw [if_neg hskip, if_neg hskip]
    apply (leaving_rel h _).bind
    rintro ⟨chdr, payload⟩ _ rfl
    exact applyPayload_rel libs state _ chdr payload h

/-- An envelope processed over some stores is processed alike over any others. -/
theorem processEnvelope_of_stores {libs : Libs} {state : Kvs} {number : ℕ} {txFilter : Bytes}
    {updates : Kvs} {certs certs' : RootCerts} {e : Encoded Envelope × ℕ} {s : BlockPhase}
    (h : processEnvelope libs state number txFilter ⟨updates, certs⟩ e = .ok s)
    (hc : HasStores certs) (hc' : HasStores certs') :
    ∃ d, HasStores d ∧
      processEnvelope libs state number txFilter ⟨updates, certs'⟩ e = .ok ⟨s.updates, d⟩ := by
  have hr := processEnvelope_rel libs state number txFilter ⟨updates, certs⟩ ⟨updates, certs'⟩ e
    ⟨rfl, hc, hc'⟩
  rw [h] at hr
  obtain ⟨t, ht, hu, -, hd⟩ := hr.eq_ok
  exact ⟨t.rootCerts, hd, by rw [ht, hu]⟩

/-- The stores are there after every envelope, also after one that does not decode. -/
theorem processEnvelope_hasStores {libs : Libs} {state : Kvs} {number : ℕ} {txFilter : Bytes}
    {s s' : BlockPhase} {e : Encoded Envelope × ℕ} (hs : HasStores s.rootCerts)
    (h : processEnvelope libs state number txFilter s e = .ok s' ∨
      ∃ x, processEnvelope libs state number txFilter s e = .error (x, s')) :
    HasStores s'.rootCerts := by
  have hr := processEnvelope_rel libs state number txFilter s s e ⟨rfl, hs, hs⟩
  rcases h with h | ⟨x, h⟩
  · rw [h] at hr
    cases hr with
    | ok hr => exact hr.2.1
  · rw [h] at hr
    cases hr with
    | error hr => exact hr.2.2.1

end SecureChaincode
