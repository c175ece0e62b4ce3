import SecureChaincode.Endorsements
import SecureChaincode.VersionProvenance

/-! The life cycle of an auction in the ledger enclave, when its transactions are endorsed on
earlier states and ordered into blocks in whatever way. -/
namespace SecureChaincode

open Std

/-- The names under which the ledger enclave has the record and the bids of an auction. -/
def OfAuction (name k : Bytes) : Prop :=
  k = recordName name ∨ str "ecc" ++ sgxKey [str "somePrefix", name] <+: k

section
variable {name : Bytes}

theorem OfAuction.prefix_ecc {k : Bytes} (h : OfAuction name k) : str "ecc." <+: k := by
  rcases h with rfl | h
  · exact List.prefix_append _ _
  · exact List.IsPrefix.trans ⟨(sgxKey [str "somePrefix", name]).tail, rfl⟩ h

/-- The record of an auction belongs to no other one. -/
theorem OfAuction.record {name' : Bytes} (hdot : sep ∉ name') (h : OfAuction name (recordName name')) :
    name' = name := by
  rcases h with h | h
  · exact List.append_cancel_left h
  · -- the name would have a dot
    have htail : (sgxKey [str "somePrefix", name]).tail <+: name' := by
      obtain ⟨rest, hrest⟩ := h
      refine ⟨rest, @List.append_cancel_left _ (str "ecc.") _ _ (Eq.trans ?_ hrest)⟩
      rfl
    exact absurd (htail.subset (by simp [sgxKey, delimited])) hdot

variable (hn : PlainWord name)
include hn

theorem plainWord_bids : ∀ w ∈ [str "somePrefix", name], PlainWord w :=
  List.forall_mem_cons.mpr ⟨plainWord_somePrefix, List.forall_mem_singleton.mpr hn⟩

/-- What an operation stores belongs to its auction only. -/
theorem OfAuction.ledgerName {op : Operation} (hplain : ∀ w ∈ op.names, PlainWord w)
    (h : OfAuction name op.ledgerName) : op.auctionName = name := by
  have hdot := (hplain _ op.auctionName_mem).no_dot
  cases op with
  | submit auctionName bidderName value =>
    have hwords : ∀ w ∈ bidKey auctionName bidderName, PlainWord w :=
      plainWord_bidKey (hplain _ List.mem_cons_self) (hplain _ (List.mem_cons_of_mem _ List.mem_cons_self))
    rcases h with h | h
    · exact absurd h.symm (recordName_ne_composite hn _)
    · have hpre := (sgxKey_prefix_iff (plainWord_bids hn) hwords).mp ((List.prefix_append_right_inj _).mp h)
      obtain ⟨rest, hrest⟩ := hpre
      cases hrest
      rfl
  | create auctionName => exact h.record hdot
  | close auctionName => exact h.record hdot
  | eval auctionName => exact h.record hdot

/-- World states that mirror the same entries of an auction are the same for it. -/
theorem sameAuction_of_mirrors {w w' s s' : Kvs} (hw : Mirrors w s) (hw' : Mirrors w' s')
    (h : ∀ k, OfAuction name k → s[k]? = s'[k]?) : SameAuction name w w' := by
  intro k hk
  rcases hk with rfl | hk
  · rw [hw.getElem?_eq (.record hn) (eccName_record hn), hw'.getElem?_eq (.record hn) (eccName_record hn)]
    exact h _ (Or.inl rfl)
  by_cases hkey : ∃ comp, (∀ w ∈ comp, PlainWord w) ∧ k = fabricKey comp
  · obtain ⟨comp, hcomp, rfl⟩ := hkey
    rw [hw.getElem?_eq (.composite hcomp) (eccName_of_plain hcomp),
      hw'.getElem?_eq (.composite hcomp) (eccName_of_plain hcomp)]
    apply h _ (Or.inr _)
    rw [List.prefix_append_right_inj, sgxKey_prefix_iff (plainWord_bids hn) hcomp]
    exact (fabricKey_prefix_iff (plainWord_bids hn) hcomp).mp hk
  · -- neither has a key that starts so and is no composite key
    have hnone : ∀ {v s : Kvs}, Mirrors v s → v[k]? = none := by
      intro v s hv
      by_contra hne
      obtain ⟨x, hx⟩ := Option.ne_none_iff_exists'.mp hne
      exact hkey ((hv.key k x hx).tidyKey.composite_of_start hk)
    rw [hnone hw, hnone hw']

end

/-- The effective operations on an auction: it is created, gets bids, and may be closed at the end. -/
inductive Stage (name : Bytes) : Option Bool → List Operation → Prop
  | absent : Stage name none []
  | isOpen {bids : List Operation} (h : ∀ op ∈ bids, ∃ bidder value, op = .submit name bidder value) :
    Stage name (some true) (.create name :: bids)
  | closed {bids : List Operation} (h : ∀ op ∈ bids, ∃ bidder value, op = .submit name bidder value) :
    Stage name (some false) (.create name :: bids ++ [.close name])

/-- The flag of the record behind an operation that has stored something. -/
def Operation.next : Operation → Option Bool
  | .close _ => some false
  | _ => some true

/-- An operation stores something in its stage only. -/
theorem Stage.next {libc : Libc} {op : Operation} {flag : Option Bool} {ops : List Operation} {key val : Bytes}
    (h : Stage op.auctionName flag ops) (hput : op.planFor libc flag = .put key val) :
    Stage op.auctionName op.next (ops ++ [op]) := by
  cases op with
  | create name =>
    cases h with
    | absent => exact @Stage.isOpen name [] (fun _ hop => absurd hop List.not_mem_nil)
    | isOpen hbids => cases hput
    | closed hbids => cases hput
  | submit name bidder value =>
    cases h with
    | absent => cases hput
    | isOpen hbids =>
      refine .isOpen (fun op hop => ?_)
      rcases List.mem_append.mp hop with hop | hop
      · exact hbids op hop
      · exact ⟨bidder, value, List.mem_singleton.mp hop⟩
    | closed hbids => cases hput
  | close name =>
    cases h with
    | absent => cases hput
    | isOpen hbids => exact .closed hbids
    | closed hbids => cases hput
  | eval name =>
    cases h with
    | absent => cases hput
    | isOpen hbids => cases hput
    | closed hbids => cases hput

/-- What an operation stores: the record with the next flag, or a bid, which leaves the flag. -/
theorem Operation.put_cases {libc : Libc} {op : Operation} {flag : Option Bool} {key val : Bytes}
    (hput : op.planFor libc flag = .put key val) (hn : PlainWord op.auctionName) :
    (op.ledgerName = recordName op.auctionName ∧
        ∃ isOpen, op.next = some isOpen ∧ val = marshalAuction libc ⟨op.auctionName, isOpen⟩) ∨
      recordName op.auctionName ≠ op.ledgerName ∧ op.next = flag := by
  cases op with
  | create name =>
    rcases flag with _ | _ | _ <;> cases hput
    exact Or.inl ⟨rfl, true, rfl, rfl⟩
  | close name =>
    rcases flag with _ | _ | _ <;> cases hput
    exact Or.inl ⟨rfl, false, rfl, rfl⟩
  | submit name bidder value =>
    rcases flag with _ | _ | _ <;> cases hput
    exact Or.inr ⟨recordName_ne_composite hn _, rfl⟩
  | eval name => rcases flag with _ | _ | _ <;> cases hput

/-! One turn. -/

section
variable {state updates : Kvs} {writes : List (Bytes × Bytes)} {version : Version}

/-- A turn leaves an entry, or it stores one of its writes. -/
theorem overlay_turn (state updates : Kvs) (writes : List (Bytes × Bytes)) (version : Version) (k : Bytes) :
    (assignAll state (insertAll updates (stamp version writes)))[k]? = (assignAll state updates)[k]? ∨
      ∃ p ∈ writes, p.1 = k ∧
        (assignAll state (insertAll updates (stamp version writes)))[k]? = some (p.2, version) := by
  rw [getElem?_assignAll, getElem?_assignAll, getElem?_insertAll]
  cases updates[k]? with
  | some x => exact Or.inl rfl
  | none =>
    rw [Option.none_or]
    cases hlookup : (stamp version writes).lookup k with
    | none => exact Or.inl rfl
    | some x =>
      obtain ⟨p, hp, hpx⟩ := List.mem_map.mp (mem_of_lookup_eq_some hlookup)
      cases hpx
      exact Or.inr ⟨p, hp, rfl, rfl⟩

theorem overlay_turn_of_ne {k : Bytes} (h : ∀ p ∈ writes, p.1 ≠ k) :
    (assignAll state (insertAll updates (stamp version writes)))[k]? = (assignAll state updates)[k]? := by
  rcases overlay_turn state updates writes version k with hsame | ⟨p, hp, hk, -⟩
  · exact hsame
  · exact absurd hk (h p hp)

theorem overlay_turn_single {k v : Bytes} (hnone : updates[k]? = none) :
    (assignAll state (insertAll updates (stamp version [(k, v)])))[k]? = some (v, version) := by
  rw [getElem?_assignAll, getElem?_insertAll, hnone, Option.none_or, stamp, List.map_singleton, List.lookup_cons_self]
  rfl

/-- The world state of the peer follows, if only one name of the chaincode is written. -/
theorem Mirrors.turn {worldState : Kvs} (h : Mirrors worldState (assignAll state updates)) {key name : Bytes}
    (hk : AuctionKey key) (hname : eccName (str "ecc") key = some name)
    (hwrites : ∀ p ∈ writes, str "ecc." <+: p.1 → p.1 = name ∧ PlainText p.2) :
    ∃ w, Mirrors w (assignAll state (insertAll updates (stamp version writes))) := by
  have hother : ∀ k, str "ecc." <+: k → k ≠ name →
      (assignAll state (insertAll updates (stamp version writes)))[k]? = (assignAll state updates)[k]? := by
    intro k hpre hne
    apply overlay_turn_of_ne
    rintro p hp rfl
    exact hne (hwrites p hp hpre).1
  rcases overlay_turn state updates writes version name with hsame | ⟨p, hp, hpn, hat⟩
  · refine ⟨worldState, h.congr (fun k hpre => ?_)⟩
    by_cases hne : k = name
    · rw [hne, hsame]
    · exact hother k hpre hne
  · have hplain := (hwrites p hp (by rw [hpn]; exact hk.prefix_eccName hname)).2
    exact ⟨_, h.insert (x := (p.2, version)) hk hname hplain hat hother⟩

end

section
variable {η τ σ : Type}

/-- The operation of a transaction that is accepted and has something to store. -/
def Turn.effect (t : Turn (Endorsement η τ σ)) : Option Operation :=
  if t.outcome.accepted = true ∧ t.outcome.writes ≠ [] then t.note.bind (fun x => x.invocation.operation) else none

/-- The effective operations on an auction, in commit order. -/
def effects (name : Bytes) (ts : List (Turn (Endorsement η τ σ))) : List Operation :=
  (ts.filterMap Turn.effect).filter (fun op => op.auctionName = name)

/-- The answers of an operation that does nothing. -/
def refusals : List Bytes := [str "AUCTION_ALREADY_EXISTS", str "AUCTION_ALREADY_CLOSED"]

variable (F : KeyRule) (E : Enclave η τ σ)

/-- If the transaction is an evaluation that is accepted and successful, its response is what the
same invocation gives on the state at this turn. -/
def Turn.EvalSound (t : Turn (Endorsement η τ σ)) : Prop :=
  ∀ x name response, t.note = some x → t.outcome.accepted = true → x.invocation.operation = some (.eval name) →
    (x.simulated F).1 = some (some response) → response ∉ refusals →
      (∃ w, Mirrors w t.before) ∧ ∀ w, Mirrors w t.before → (x.invocation.simulated F w).1 = some (some response)

/-- A transaction that has nothing to do with auctions: of the keys of the chaincode it writes
`MRENCLAVE` at most. -/
def Foreign (number : ℕ) (e : Encoded Envelope) : Prop :=
  ∀ t, envelopeTx number e = some t → ∀ a ∈ t.actions, ∀ p ∈ actionWrites a, str "ecc." <+: p.1 →
    p.1 = recordName (str "MRENCLAVE") ∧ PlainText p.2

/-- The envelopes that may be ordered, when the states `past` have been committed before. -/
inductive Legitimate (past : Kvs → Prop) (number : ℕ) (e : Encoded Envelope) : Option (Endorsement η τ σ) → Prop
  | endorsed {x : Endorsement η τ σ} (hseen : past x.seen) (hE : SameBuild x.invocation.enclave E)
    (h : x.HeldBy F number e) : Legitimate past number e (some x)
  | foreign (h : Foreign number e) : Legitimate past number e none

/-- What holds at every turn, behind the turns `ts`, when the state under the updates is `o`. -/
structure Sound (past : Kvs → Prop) (o : Kvs) (ts : List (Turn (Endorsement η τ σ))) : Prop where
  stage : ∀ name, PlainWord name → name ≠ str "MRENCLAVE" →
    ∃ flag, RecordIs E name o flag ∧ Stage name flag (effects name ts)
  known : ∀ s, past s → ∀ name, PlainWord name → name ≠ str "MRENCLAVE" → ∃ flag, RecordIs E name s flag
  /-- an auction that was closed has stayed as it was -/
  settled : ∀ s, past s → ∀ name, PlainWord name → name ≠ str "MRENCLAVE" → RecordIs E name s (some false) →
    ∀ k, OfAuction name k → o[k]? = s[k]?
  mirrored : ∃ w, Mirrors w o
  evals : ∀ t ∈ ts, t.EvalSound F

variable {F E} {past : Kvs → Prop} {ts : List (Turn (Endorsement η τ σ))} {t : Turn (Endorsement η τ σ)}

theorem effects_snoc_of_none {name : Bytes} (h : ∀ op, t.effect = some op → op.auctionName ≠ name) :
    effects name (ts ++ [t]) = effects name ts := by
  have hnone : ([t].filterMap Turn.effect).filter (fun op => op.auctionName = name) = [] := by
    rw [List.filter_eq_nil_iff]
    intro op hop
    obtain ⟨t', ht', he⟩ := List.mem_filterMap.mp hop
    rw [List.mem_singleton.mp ht'] at he
    simpa using h op he
  rw [effects, List.filterMap_append, List.filter_append, hnone, List.append_nil, effects]

theorem effects_snoc_of_some {op : Operation} (h : t.effect = some op) :
    effects op.auctionName (ts ++ [t]) = effects op.auctionName ts ++ [op] := by
  have hone : [t].filterMap Turn.effect = [op] := by rw [List.filterMap_cons_some h, List.filterMap_nil]
  rw [effects, List.filterMap_append, List.filter_append, hone, effects, List.filter_singleton]
  simp

theorem mem_planEnvelope_writes {state updates : Kvs} {number txNum : ℕ} {txFilter : Bytes} {e : Encoded Envelope}
    {p : Bytes × Bytes} (h : p ∈ (planEnvelope state number txFilter updates (e, txNum)).writes) :
    ∃ tx, envelopeTx number e = some tx ∧ ∃ a ∈ tx.actions, p ∈ actionWrites a := by
  rw [planEnvelope] at h
  split_ifs at h with hskip
  · exact absurd h List.not_mem_nil
  cases htx : envelopeTx number e with
  | none =>
    simp only [htx] at h
    exact absurd h List.not_mem_nil
  | some tx =>
    simp only [htx] at h
    exact ⟨tx, rfl, mem_planTx_writes h⟩

/-- The context of a turn: what is committed before it, and the updates of its block so far. -/
structure TurnContext (past : Kvs → Prop) (state : Kvs) (number : ℕ) (updates : Kvs) : Prop where
  follows : ∀ s, past s → Follows s state
  below : ∀ k v, versionOf state k = some v → v.blockNum < number
  pending : Pending number updates

section
variable {state updates : Kvs} {number txNum : ℕ} {txFilter : Bytes} {e : Encoded Envelope}
  (hc : TurnContext past state number updates)
include hc

theorem TurnContext.overlay_follows {s : Kvs} (hs : past s) : Follows s (assignAll state updates) :=
  (hc.follows s hs).trans (hc.pending.follows hc.below)

theorem TurnContext.below_past {s : Kvs} (hs : past s) {k : Bytes} {v : Version} (hv : versionOf s k = some v) :
    v.blockNum < number := by
  rcases hc.follows s hs k with heq | ⟨w, hw, hlt⟩
  · apply hc.below k v
    rw [versionOf, heq]
    exact hv
  · rw [readVersion_of_some hv, Version.lt_iff] at hlt
    have hwn := hc.below k w hw
    omega

/-- A transaction that is accepted finds the record that it has seen, and no update of it. -/
theorem TurnContext.record_of_fresh {s : Kvs} (hs : past s) {k : Bytes}
    (hfresh : fresh state updates (k, readVersion s k) = true) :
    (assignAll state updates)[k]? = s[k]? ∧ updates[k]? = none :=
  ⟨(hc.overlay_follows hs).eq_of_fresh hfresh, hc.pending.notMem_of_fresh (fun _ hv => hc.below_past hs hv) hfresh⟩

end

variable (E) in
/-- What one turn does, from the state `o` to the state `o'`: nothing for any auction, or what its
operation plans for the record as it is. -/
inductive TurnCases (o o' : Kvs) (t : Turn (Endorsement η τ σ)) : Prop
  | idle (heffect : t.effect = none)
    (hsame : ∀ name, PlainWord name → name ≠ str "MRENCLAVE" → ∀ k, OfAuction name k → o'[k]? = o[k]?)
  | effective {op : Operation} (heffect : t.effect = some op) (hplain : ∀ w ∈ op.names, PlainWord w)
    (hput : ∀ flag, RecordIs E op.auctionName o flag → ∃ key val iv version,
      op.planFor E.libc flag = .put key val ∧ iv.length = 12 ∧
        (op.ledgerName = recordName op.auctionName → o'[op.ledgerName]? = some (sealWith E iv val, version)))
    (hother : ∀ k, k ≠ op.ledgerName → o'[k]? = o[k]?)

section
variable {o o' : Kvs} (h : TurnCases E o o' t) {name : Bytes} (hn : PlainWord name) (hmr : name ≠ str "MRENCLAVE")
include h hn hmr

/-- A turn takes every auction from one stage to the next, or leaves it where it is. -/
theorem TurnCases.stage (hstage : ∃ flag, RecordIs E name o flag ∧ Stage name flag (effects name ts)) :
    ∃ flag, RecordIs E name o' flag ∧ Stage name flag (effects name (ts ++ [t])) := by
  obtain ⟨flag, hflag, hstage⟩ := hstage
  cases h with
  | idle heffect hsame =>
    refine ⟨flag, hflag.congr (hsame name hn hmr _ (Or.inl rfl)), ?_⟩
    rwa [effects_snoc_of_none (by rw [heffect]; exact fun _ he => absurd he (by simp))]
  | @effective op heffect hplain hput hother =>
    by_cases hname : op.auctionName = name
    · subst hname
      obtain ⟨key, val, iv, version, hplan, hiv, hat⟩ := hput flag hflag
      refine ⟨op.next, ?_, by rw [effects_snoc_of_some heffect]; exact hstage.next hplan⟩
      rcases op.put_cases hplan hn with ⟨hledger, isOpen, hnext, rfl⟩ | ⟨hledger, hnext⟩
      · rw [hnext]
        exact .stored hiv (hledger ▸ hat hledger)
      · rw [hnext]
        exact hflag.congr (hother _ hledger)
    · have hrecord : recordName name ≠ op.ledgerName :=
        fun heq => hname (OfAuction.ledgerName hn hplain (Or.inl heq.symm))
      refine ⟨flag, hflag.congr (hother _ hrecord), ?_⟩
      rwa [effects_snoc_of_none (fun op' he => by rw [← Option.some.inj (heffect.symm.trans he)]; exact hname)]

/-- A turn leaves an auction that is closed as it is. -/
theorem TurnCases.eq_of_closed (hclosed : RecordIs E name o (some false)) {k : Bytes} (hk : OfAuction name k) :
    o'[k]? = o[k]? := by
  cases h with
  | idle heffect hsame => exact hsame name hn hmr k hk
  | @effective op heffect hplain hput hother =>
    apply hother
    rintro rfl
    -- an effective operation on the auction would have found it open, or not at all
    have hname := OfAuction.ledgerName hn hplain hk
    subst hname
    obtain ⟨key, val, iv, version, hplan, -⟩ := hput (some false) hclosed
    cases op <;> cases hplan

end

theorem Operation.stored_cases (E : Enclave η τ σ) (iv : Bytes) (flag : Option Bool) (op : Operation) :
    op.stored E iv flag = [] ∨ ∃ key val, op.planFor E.libc flag = .put key val ∧
      op.stored E iv flag = [(op.ledgerName, sealWith E iv val)] := by
  rw [stored]
  cases op.planFor E.libc flag with
  | answer result => exact Or.inl rfl
  | tally => exact Or.inl rfl
  | put key val => exact Or.inr ⟨key, val, rfl, rfl⟩

section
variable {state updates : Kvs} {number txNum : ℕ} {txFilter : Bytes} {e : Encoded Envelope}
  (hgcm : E.gcm.RoundTrip)
include hgcm

/-- The response of a successful evaluation: the auction was closed when it was endorsed, and has
not changed since. -/
theorem Sound.evalSound {note : Option (Endorsement η τ σ)} (h : Legitimate F E past number e note)
    (hS : Sound F E past (assignAll state updates) ts) :
    Turn.EvalSound F
      ⟨note, assignAll state updates, planEnvelope state number txFilter updates (e, txNum)⟩ := by
  intro x name response hnote _ hop hresponse hsuccess
  cases h with
  | foreign hforeign => cases hnote
  | @endorsed x' hseen hE hheld =>
    cases hnote
    obtain ⟨op, hop', hplain, hmr⟩ := hheld.operation
    cases hop.symm.trans hop'
    have hn : PlainWord name := hplain _ List.mem_cons_self
    obtain ⟨flag, hflag⟩ := hS.known x.seen hseen name hn hmr
    obtain ⟨reply, tail, hperformed, -⟩ := x.performed hop hresponse hheld.mirrors hn hE hgcm hflag
    have hclosed : flag = some false := by
      rcases flag with _ | _ | _
      · cases hperformed
        exact absurd (by decide) hsuccess
      · rfl
      · cases hperformed
        exact absurd (by decide) hsuccess
    have hsame := hS.settled x.seen hseen name hn hmr (hclosed ▸ hflag)
    refine ⟨hS.mirrored, fun w hw => ?_⟩
    have hauction : x.invocation.auction = some name := by rw [Invocation.auction, hop]; rfl
    rw [Invocation.simulated_congr hauction hn.no_dot (sameAuction_of_mirrors hn hw hheld.mirrors hsame)]
    exact hresponse

/-- What the envelope writes is one record or one bid, or `MRENCLAVE`: the world state of the peer
follows. -/
theorem Sound.mirrored_turn {note : Option (Endorsement η τ σ)} (h : Legitimate F E past number e note)
    (hS : Sound F E past (assignAll state updates) ts) :
    ∃ w, Mirrors w (assignAll state (insertAll updates
      (stamp ⟨number, txNum⟩ (planEnvelope state number txFilter updates (e, txNum)).writes))) := by
  obtain ⟨w, hw⟩ := hS.mirrored
  cases h with
  | foreign hforeign =>
    have hmr : PlainWord (str "MRENCLAVE") := ⟨by decide, by decide, by decide +kernel⟩
    refine hw.turn (.record hmr) (eccName_record hmr) (fun p hp hpre => ?_)
    obtain ⟨tx, htx, a, ha, hpa⟩ := mem_planEnvelope_writes hp
    exact hforeign tx htx a ha p hpa hpre
  | @endorsed x hseen hE hheld =>
    obtain ⟨op, hop, hplain, hmr⟩ := hheld.operation
    refine hw.turn (op.auctionKey_target hplain) (op.eccName_target hplain) (fun p hp _ => ?_)
    obtain ⟨flag, hflag⟩ := hS.known x.seen hseen _ (hplain _ op.auctionName_mem) hmr
    rcases hheld.outcome hop hE hgcm hflag state updates txFilter txNum with hreject | ⟨-, iv, -, haccept⟩
    · rw [hreject] at hp
      exact absurd hp List.not_mem_nil
    rw [haccept] at hp
    rcases op.stored_cases E iv flag with hstored | ⟨key, val, -, hstored⟩
    · rw [hstored] at hp
      exact absurd hp List.not_mem_nil
    · rw [hstored] at hp
      rw [List.mem_singleton.mp hp]
      exact ⟨rfl, plainText_sealWith E iv val⟩

variable (hc : TurnContext past state number updates)
include hc

variable (txNum txFilter) in
theorem Legitimate.turnCases {note : Option (Endorsement η τ σ)} (h : Legitimate F E past number e note)
    (hknown : ∀ s, past s → ∀ name, PlainWord name → name ≠ str "MRENCLAVE" → ∃ flag, RecordIs E name s flag) :
    TurnCases E (assignAll state updates)
      (assignAll state (insertAll updates
        (stamp ⟨number, txNum⟩ (planEnvelope state number txFilter updates (e, txNum)).writes)))
      ⟨note, assignAll state updates, planEnvelope state number txFilter updates (e, txNum)⟩ := by
  cases h with
  | foreign hforeign =>
    refine .idle ?_ ?_
    · rw [Turn.effect]
      exact ite_self _
    · intro name hn hmr k hk
      apply overlay_turn_of_ne
      rintro p hp rfl
      obtain ⟨tx, htx, a, ha, hpa⟩ := mem_planEnvelope_writes hp
      have hp' := (hforeign tx htx a ha p hpa hk.prefix_ecc).1
      rw [hp'] at hk
      exact hmr (hk.record (by decide)).symm
  | @endorsed x hseen hE hheld =>
    obtain ⟨op, hop, hplain, hmr⟩ := hheld.operation
    have hn := hplain _ op.auctionName_mem
    obtain ⟨flag, hflag⟩ := hknown x.seen hseen op.auctionName hn hmr
    rcases hheld.outcome hop hE hgcm hflag state updates txFilter txNum with hreject | ⟨hfresh, iv, -, haccept⟩
    · -- rejected
      rw [hreject]
      refine .idle ?_ (fun name hn hmr k hk => overlay_turn_of_ne (fun p hp => absurd hp List.not_mem_nil))
      rw [Turn.effect, if_neg (by simp)]
    obtain ⟨hrecord, hnone⟩ := hc.record_of_fresh hseen hfresh
    rcases op.stored_cases E iv flag with hstored | ⟨key, val, hput, hstored⟩
    · -- nothing to store
      rw [haccept, hstored]
      refine .idle ?_ (fun name hn hmr k hk => overlay_turn_of_ne (fun p hp => absurd hp List.not_mem_nil))
      rw [Turn.effect, if_neg (by simp)]
    · refine @TurnCases.effective _ _ _ E _ _ _ op ?_ hplain ?_ ?_
      · rw [Turn.effect, haccept, hstored, if_pos ⟨rfl, List.cons_ne_nil _ _⟩]
        exact hop
      · intro flag' hflag'
        -- the flag of the state is that of the state which was seen
        rcases hheld.outcome hop hE hgcm (hflag'.congr hrecord.symm) state updates txFilter txNum with
          hreject | ⟨-, iv', hiv', haccept'⟩
        · exact absurd (Outcome.mk.inj (hreject.symm.trans haccept)).2 Bool.false_ne_true
        rcases op.stored_cases E iv' flag' with hstored' | ⟨key', val', hput', hstored'⟩
        · rw [haccept, hstored, hstored'] at haccept'
          cases haccept'
        · refine ⟨key', val', iv', ⟨number, txNum⟩, hput', hiv', fun hname => ?_⟩
          rw [haccept', hstored']
          apply overlay_turn_single
          rw [hname]
          exact hnone
      · intro k hk
        apply overlay_turn_of_ne
        intro p hp
        rw [haccept, hstored] at hp
        rw [List.mem_singleton.mp hp]
        exact hk.symm

/-- Step lemma: a turn keeps the invariant. -/
theorem Sound.turn {note : Option (Endorsement η τ σ)} (h : Legitimate F E past number e note)
    (hS : Sound F E past (assignAll state updates) ts) :
    Sound F E past
      (assignAll state (insertAll updates
        (stamp ⟨number, txNum⟩ (planEnvelope state number txFilter updates (e, txNum)).writes)))
      (ts ++ [⟨note, assignAll state updates, planEnvelope state number txFilter updates (e, txNum)⟩]) where
  stage name hn hmr := (h.turnCases txNum txFilter hgcm hc hS.known).stage hn hmr (hS.stage name hn hmr)
  known := hS.known
  settled s hs name hn hmr hclosed k hk := by
    have hsame := hS.settled s hs name hn hmr hclosed
    rw [← hsame k hk]
    apply (h.turnCases txNum txFilter hgcm hc hS.known).eq_of_closed hn hmr _ hk
    exact hclosed.congr (hsame _ (Or.inl rfl))
  mirrored := hS.mirrored_turn hgcm h
  evals t ht := by
    rcases List.mem_append.mp ht with ht | ht
    · exact hS.evals t ht
    · rw [List.mem_singleton.mp ht]
      exact hS.evalSound hgcm h

end

end

end SecureChaincode
