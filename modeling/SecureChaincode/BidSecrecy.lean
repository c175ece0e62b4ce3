import SecureChaincode.EncryptedArgs
import SecureChaincode.SealedTraces

/-! What a peer gets to see of the bids. It hands over the encrypted arguments, answers the ocalls and
holds the world state, in which the values are sealed: of what is encrypted it knows the length. The
responses it sees in clear text. -/
namespace SecureChaincode

open Std

/-- An ocall as the peer sees it. -/
inductive OcallView
  | getState (key : Bytes) (maxValLen : UInt32) (valLen : ℕ)
  | putState (key : Bytes) (valLen : ℕ)
  | getStateByPartialCompositeKey (compKey : Bytes) (valLen : ℕ)

/-- The world state as the peer sees it: the keys, with the lengths and versions of their values. -/
def outline (worldState : Kvs) : ExtTreeMap Bytes (ℕ × Version) compare :=
  worldState.map (fun _ x => (x.1.length, x.2))

/-- An invocation with encrypted arguments as the peer sees it. -/
structure PeerView where
  before : ExtTreeMap Bytes (ℕ × Version) compare
  argsLen : ℕ
  pk : Bytes
  response : Option (Option Bytes)
  ocalls : List OcallView

section
variable {η τ σ : Type}

def Event.view : Event τ → OcallView
  | .getState key maxValLen reply => .getState key maxValLen reply.val.length
  | .putState key val => .putState key val.length
  | .getStateByPartialCompositeKey compKey _ reply => .getStateByPartialCompositeKey compKey reply.val.length

section
variable (F : KeyRule)

def Invocation.peerView (worldState : Kvs) (i : Invocation η τ σ) : PeerView :=
  ⟨outline worldState, i.args.length, i.pk, (i.simulated F worldState).1, (i.simulated F worldState).2.trace.map Event.view⟩

/-- The invocations one after the other. -/
def peerViews : Kvs → List (Invocation η τ σ) → List PeerView
  | _, [] => []
  | worldState, i :: is => i.peerView F worldState :: peerViews (i.commit F worldState) is

/-- An evaluation tells about the bids on purpose. -/
def Invocation.evaluates (i : Invocation η τ σ) : Bool :=
  match i.operation with
  | some (.eval _) => true
  | _ => false

/-- The results of the evaluations. -/
def evaluations : Kvs → List (Invocation η τ σ) → List (Option (Option Bytes))
  | _, [] => []
  | worldState, i :: is =>
    (if i.evaluates then [(i.simulated F worldState).1] else []) ++ evaluations (i.commit F worldState) is

end

/-- The same operation, or a bid of the same bidder with another value whose record is as long. -/
inductive Operation.Alike (libc : Libc) : Operation → Operation → Prop
  | same (op : Operation) : Operation.Alike libc op op
  | bid (auctionName bidderName : Bytes) {value value' : ℤ}
    (h : (marshalBid libc ⟨bidderName, value⟩).length = (marshalBid libc ⟨bidderName, value'⟩).length) :
    Operation.Alike libc (.submit auctionName bidderName value) (.submit auctionName bidderName value')

/-- Two invocations that a peer should not be able to tell apart. Their arguments are encrypted, for
the same key of the client. -/
structure Disguised (E : Enclave η τ σ) (i j : Invocation η τ σ) : Prop where
  left : SameBuild i.enclave E
  right : SameBuild j.enclave E
  encrypted : cstr i.pk ≠ []
  pk : i.pk = j.pk
  argsLen : i.args.length = j.args.length
  responseLenIn : i.responseLenIn = j.responseLenIn
  version : i.version = j.version
  operation : ∃ op op', i.operation = some op ∧ j.operation = some op' ∧ op.Alike E.libc op' ∧
    ∀ w ∈ op.names, PlainWord w

/-- Sealed values of the same length, and of the same clear text if the key is not that of a bid. -/
def SameShape (key : Bytes) (x x' : Bytes × Bytes) : Prop :=
  x.1.length = 12 ∧ x'.1.length = 12 ∧ x.2.length = x'.2.length ∧ (isSGXCompositeKey key = false → x.2 = x'.2)

/-- World states that look the same. -/
def WorldAlike (E : Enclave η τ σ) (F : KeyRule) : Kvs → Kvs → Prop :=
  Pointwise (fun f x x' => x = x' ∨
    x.2 = x'.2 ∧ ∃ key, goKey F key = some f ∧ Resealed E SameShape key x.1 x'.1)

variable {E : Enclave η τ σ} {F : KeyRule} {worldState worldState' : Kvs}

theorem Resealed.length_eq {key v v' : Bytes} (h : Resealed E SameShape key v v') : v.length = v'.length := by
  cases h with
  | intro hshape =>
    obtain ⟨hiv, hiv', hlen, -⟩ := hshape
    dsimp only at hlen
    rw [length_sealWith hiv, length_sealWith hiv', hlen]

theorem view_eq_of_alike {e e' : Event τ} (h : EventAlike E SameShape e e') : e.view = e'.view := by
  cases h with
  | getState key maxValLen h => rw [Event.view, Event.view, h]
  | putState key h => rw [Event.view, Event.view, h.length_eq]
  | getStateByPartialCompositeKey compKey values h => rw [Event.view, Event.view, h]

theorem views_eq_of_alike {trace trace' : List (Event τ)} (h : List.Forall₂ (EventAlike E SameShape) trace trace') :
    trace.map Event.view = trace'.map Event.view := by
  induction h with
  | nil => rfl
  | cons hevent _ ih => rw [List.map_cons, List.map_cons, view_eq_of_alike hevent, ih]

theorem WorldAlike.outline_eq (h : WorldAlike E F worldState worldState') : outline worldState = outline worldState' := by
  apply h.map_eq
  rintro f x x' (rfl | ⟨hversion, key, -, hsealed⟩)
  · rfl
  · rw [hsealed.length_eq, hversion]

/-- The writes of two runs that look the same are committed. -/
theorem WorldAlike.commitWrites (h : WorldAlike E F worldState worldState') {trace trace' : List (Event τ)}
    (htrace : List.Forall₂ (EventAlike E SameShape) trace trace') (version : Version) :
    WorldAlike E F (commitWrites worldState (simulatedWrites F trace) version)
      (commitWrites worldState' (simulatedWrites F trace') version) :=
  h.assignAll ((simulatedWrites_pointwise htrace).map (fun _ _ _ hsealed => Or.inr ⟨rfl, hsealed⟩))

/-! The reads. -/

/-- What Fabric has under a plain name was not put for a composite key. -/
theorem isSGXCompositeKey_of_goKey {key name : Bytes} (hn : PlainWord name) (h : goKey F key = some name) :
    isSGXCompositeKey key = false := by
  by_contra hc
  rw [Bool.not_eq_false] at hc
  rw [goKey, if_pos hc, transformToCompositeKey] at h
  cases hsplit : splitSGXCompositeKey key with
  | none =>
    rw [hsplit] at h
    cases h
  | some words =>
    rw [hsplit] at h
    cases words with
    | nil => cases h
    | cons objectType attributes =>
      dsimp only at h
      rw [createCompositeKey] at h
      split_ifs at h
      · -- a key in Fabric's form has NUL bytes
        rw [Option.getD_some, Option.some_inj] at h
        apply hn.no_nul
        rw [← h]
        exact List.mem_cons_self
      · exact hn.ne_nil (Option.some.inj h).symm

theorem drop_outBuffer {n : ℕ} {b : Bytes} (h : b.length ≤ n) : (outBuffer n b).drop b.length = List.replicate (n-b.length) 0 := by
  rw [outBuffer, List.take_append, List.take_of_length_le h, List.drop_left' rfl, List.take_replicate]
  congr 1
  omega

/-- The same clear text is read from both of its sealed values. -/
theorem readValue_resealed {Ei Ej : Enclave η τ σ} (hi : SameBuild Ei E) (hj : SameBuild Ej E) (hgcm : E.gcm.RoundTrip)
    {iv iv' val : Bytes} (hiv : iv.length = 12) (hiv' : iv'.length = 12) {maxValLen : UInt32}
    (hfit : sealedLength val.length ≤ maxValLen.toNat) (cmac cmac' : τ) :
    readValue Ei maxValLen ⟨sealWith E iv val, (sealedLength val.length).toUInt32, cmac, []⟩ =
      readValue Ej maxValLen ⟨sealWith E iv' val, (sealedLength val.length).toUInt32, cmac', []⟩ := by
  have hdrop {iv : Bytes} (h : iv.length = 12) : (outBuffer maxValLen.toNat (sealWith E iv val)).drop (sealedLength val.length) =
      List.replicate (maxValLen.toNat-sealedLength val.length) 0 := by
    have hlen := length_sealWith (E := E) h val
    rw [← hlen]
    exact drop_outBuffer (hlen ▸ hfit)
  have hread {Ek : Enclave η τ σ} (hk : SameBuild Ek E) {iv : Bytes} (h : iv.length = 12) (cmac : τ) :
      readValue Ek maxValLen ⟨sealWith E iv val, (sealedLength val.length).toUInt32, cmac, []⟩ =
        if sealedLength val.length < maxValLen.toNat then
          some (val ++ List.replicate (sealedLength val.length-val.length) 0 ++
            List.replicate (maxValLen.toNat-sealedLength val.length) 0, val.length)
        else none := by
    rw [← hdrop h, ← hk.readValue_sealWith_eq h val hgcm hfit, length_sealWith h]
  rw [hread hi hiv, hread hj hiv']

/-- The record of an auction has the same clear text on both sides. -/
theorem WorldAlike.getState (h : WorldAlike E F worldState worldState') (hgcm : E.gcm.RoundTrip) {Ei Ej : Enclave η τ σ}
    (hi : SameBuild Ei E) (hj : SameBuild Ej E) {name : Bytes} (hn : PlainWord name) (maxValLen : UInt32)
    (verifyTag verifyTag' : Bytes → Bool → τ) (pre pre' : List (Event τ)) :
    Option.Rel (fun r r' => r.val.length = r'.val.length ∧ readValue Ei maxValLen r = readValue Ej maxValLen r')
      ((goHost F worldState verifyTag).getState pre name maxValLen)
      ((goHost F worldState' verifyTag').getState pre' name maxValLen) := by
  have hkey := goKey_of_no_dot (F := F) hn.no_dot
  rw [goHost_getState F worldState verifyTag pre maxValLen hkey, goHost_getState F worldState' verifyTag' pre' maxValLen hkey]
  have hentry := h name
  generalize worldState[name]? = x at hentry ⊢
  generalize worldState'[name]? = x' at hentry ⊢
  -- what is the same on both sides is read in the same way
  have hsame (data : Bytes) : Option.Rel
      (fun r r' => r.val.length = r'.val.length ∧ readValue Ei maxValLen r = readValue Ej maxValLen r')
      (if maxValLen.toNat < data.length then none
        else some (⟨data, data.length.toUInt32, verifyTag name false, []⟩ : OcallReply τ))
      (if maxValLen.toNat < data.length then none
        else some (⟨data, data.length.toUInt32, verifyTag' name false, []⟩ : OcallReply τ)) := by
    split_ifs
    · exact .none
    · have hread : readValue Ei maxValLen ⟨data, data.length.toUInt32, verifyTag name false, []⟩ =
          readValue E maxValLen ⟨data, data.length.toUInt32, verifyTag' name false, []⟩ := hi.readValue_congr maxValLen rfl rfl rfl
      exact .some ⟨rfl, hread.trans (hj.readValue_congr maxValLen rfl rfl rfl).symm⟩
  cases hentry with
  | none => exact hsame []
  | @some x x' hx =>
    rcases hx with rfl | ⟨-, key, hgo, hsealed⟩
    · exact hsame x.1
    obtain ⟨v, version⟩ := x
    obtain ⟨v', version'⟩ := x'
    dsimp only at hsealed ⊢
    cases hsealed with
    | intro hshape =>
      obtain ⟨hiv, hiv', -, htext⟩ := hshape
      have hval := htext (isSGXCompositeKey_of_goKey hn hgo)
      dsimp only at hiv hiv' hval
      subst hval
      simp only [Option.map_some, Option.getD_some, length_sealWith hiv, length_sealWith hiv']
      split_ifs with hlong
      · exact .none
      · rw [Nat.not_lt] at hlong
        refine .some ⟨?_, ?_⟩
        · rw [length_sealWith hiv, length_sealWith hiv']
        · exact readValue_resealed hi hj hgcm hiv hiv' hlong _ _

/-- The text of a range query is as long as its keys and values make it. -/
theorem length_valuesText_eq {items items' : List (Bytes × Bytes)}
    (h : List.Forall₂ (fun p q => p.1.length = q.1.length ∧ p.2.length = q.2.length) items items') :
    (valuesText items).length = (valuesText items').length := by
  have hitem {p q : Bytes × Bytes} (hpq : p.1.length = q.1.length ∧ p.2.length = q.2.length) :
      (itemText p).length = (itemText q).length := by
    simp only [itemText, List.length_append, hpq.1, hpq.2]
  have hrest {l l' : List (Bytes × Bytes)}
      (hl : List.Forall₂ (fun p q => p.1.length = q.1.length ∧ p.2.length = q.2.length) l l') :
      ((l.map itemText).flatMap (fun t => 0x2c :: t)).length = ((l'.map itemText).flatMap (fun t => 0x2c :: t)).length := by
    induction hl with
    | nil => rfl
    | cons hpq _ ih => simp only [List.map_cons, List.flatMap_cons, List.length_append, List.length_cons, hitem hpq, ih]
  simp only [valuesText, List.length_append]
  cases h with
  | nil => rfl
  | cons hpq hl => simp only [List.map_cons, commaSeparated, List.length_append, hitem hpq, hrest hl]

/-- A partial key finds the same keys on both sides. -/
theorem WorldAlike.getStateByPartialKey (h : WorldAlike E F worldState worldState') (start : Bytes) :
    List.Forall₂ (fun p q => p.1 = q.1 ∧ p.2.length = q.2.length) (getStateByPartialKey worldState start)
      (getStateByPartialKey worldState' start) := by
  rw [SecureChaincode.getStateByPartialKey, SecureChaincode.getStateByPartialKey]
  have hlist := Pointwise.toList h
  generalize worldState.toList = l at hlist ⊢
  generalize worldState'.toList = l' at hlist ⊢
  induction hlist with
  | nil => exact .nil
  | @cons p q l l' hpq _ ih =>
    obtain ⟨hkey, hvalue⟩ := hpq
    rw [List.filter_cons, List.filter_cons, hkey]
    split_ifs
    · refine .cons ⟨hkey, ?_⟩ ih
      rcases hvalue with heq | ⟨-, key, -, hsealed⟩
      · exact congrArg (fun x : KvsValue => x.1.length) heq
      · exact hsealed.length_eq
    · exact ih

theorem WorldAlike.range (h : WorldAlike E F worldState worldState') (compKey : Bytes)
    (verifyTag verifyTag' : Bytes → Bool → τ) (pre pre' : List (Event τ)) :
    Option.Rel (fun r r' => r.val.length = r'.val.length)
      ((goHost F worldState verifyTag).getStateByPartialCompositeKey pre compKey)
      ((goHost F worldState' verifyTag').getStateByPartialCompositeKey pre' compKey) := by
  have hitems : Option.Rel (List.Forall₂ (fun p q : Bytes × Bytes => p.1 = q.1 ∧ p.2.length = q.2.length))
      (goRange F worldState compKey) (goRange F worldState' compKey) := by
    rw [goRange, goRange]
    cases splitSGXCompositeKey compKey with
    | none => exact .none
    | some words =>
      cases words with
      | nil => exact .none
      | cons objectType attributes =>
        dsimp only
        cases createCompositeKey F objectType attributes with
        | none => exact .none
        | some start => exact .some (h.getStateByPartialKey start)
  dsimp only [goHost]
  generalize goRange F worldState compKey = o at hitems ⊢
  generalize goRange F worldState' compKey = o' at hitems ⊢
  cases hitems with
  | none => exact .none
  | @some items items' hpairs =>
    have hlen : (valuesText (items.map (fun item => (transformToSGX item.1, item.2)))).length =
        (valuesText (items'.map (fun item => (transformToSGX item.1, item.2)))).length := by
      apply length_valuesText_eq
      refine List.forall₂_map_left_iff.mpr (List.forall₂_map_right_iff.mpr (hpairs.imp ?_))
      rintro p q ⟨hkey, hvalue⟩
      exact ⟨by rw [hkey], hvalue⟩
    simp only [Option.bind_eq_bind, Option.bind_some, hlen]
    split_ifs
    · exact .none
    · exact .some hlen

/-! The operations. -/

/-- The same plan, or a put of a bid with another value that is as long. -/
inductive PlanAlike : Plan → Plan → Prop
  | same (plan : Plan) : PlanAlike plan plan
  | put (key : Bytes) {val val' : Bytes} (hkey : isSGXCompositeKey (cstr key) = true) (hlen : val.length = val'.length) :
    PlanAlike (.put key val) (.put key val')

theorem isSGXCompositeKey_bid (auctionName bidderName : Bytes) :
    isSGXCompositeKey (bidPrefix ++ auctionName ++ str "." ++ bidderName ++ str ".") = true := by
  have hlast : (bidPrefix ++ auctionName ++ str "." ++ bidderName ++ str ".").getLast? = some sep := by
    rw [List.getLast?_append]
    rfl
  rw [isSGXCompositeKey, hlast]
  rfl

/-- With the same record before them the operations plan alike. -/
theorem Operation.Alike.plan {libc : Libc} {op op' : Operation} (h : op.Alike libc op')
    (hplain : ∀ w ∈ op.names, PlainWord w) (auctionBytes : Bytes) (len : ℕ) :
    Option.Rel PlanAlike (op.plan libc auctionBytes len) (op'.plan libc auctionBytes len) := by
  cases h with
  | same =>
    cases op.plan libc auctionBytes len with
    | none => exact .none
    | some plan => exact .some (.same plan)
  | bid auctionName bidderName hlen =>
    rw [Operation.plan, Operation.plan]
    split_ifs
    · exact .some (.same _)
    · cases unmarshalAuction libc auctionBytes with
      | none => exact .none
      | some theAuction =>
        rw [Option.map_some, Option.map_some]
        split_ifs
        · exact .some (.same _)
        · refine .some (.put _ ?_ hlen)
          have hname := (hplain auctionName (by simp [Operation.names])).no_nul
          have hbidder := (hplain bidderName (by simp [Operation.names])).no_nul
          rw [cstr_eq_self (zero_notMem_bid_key hname hbidder)]
          exact isSGXCompositeKey_bid auctionName bidderName

theorem Operation.Alike.auctionName_eq {libc : Libc} {op op' : Operation} (h : op.Alike libc op') :
    op.auctionName = op'.auctionName := by
  cases h <;> rfl

/-! The runs. -/

/-- Whatever a tally finds, it makes one ocall. -/
theorem tally_trace (E : Enclave η τ σ) (host : Host τ) (uninit : ℤ) (name : Bytes) (s : Session τ) :
    ((Plan.tally.program E.libc uninit name).run (shimStep E host) s).2.trace =
      (host.getStateByPartialCompositeKey s.trace (cstr (bidPrefix ++ name ++ str "."))).elim s.trace (fun reply =>
        s.trace ++ [.getStateByPartialCompositeKey (cstr (bidPrefix ++ name ++ str ".")) ∅ reply]) := by
  rw [Plan.program, getStateByPartialCompositeKey, Program.run_bind, Program.run_request]
  dsimp only [shimStep]
  cases host.getStateByPartialCompositeKey s.trace (cstr (bidPrefix ++ name ++ str ".")) with
  | none => rfl
  | some reply =>
    dsimp only [Option.elim_some]
    cases readValues E ∅ reply with
    | none => rfl
    | some r =>
      dsimp only
      cases evalBids E.libc uninit r.2 with
      | none => rfl
      | some result => rfl

section
variable {Ei Ej : Enclave η τ σ} (hi : SameBuild Ei E) (hj : SameBuild Ej E) (verifyTag verifyTag' : Bytes → Bool → τ)
include hi hj

variable (F worldState worldState') in
/-- A put of clear texts with the same shape. -/
theorem putState_alike (key : Bytes) {val val' : Bytes}
    (hshape : ∀ iv iv' : Bytes, iv.length = 12 → iv'.length = 12 → SameShape (cstr key) (iv, val) (iv', val'))
    {s s' : Session τ} (hs : List.Forall₂ (EventAlike E SameShape) s.trace s'.trace) :
    List.Forall₂ (EventAlike E SameShape) (shimStep Ei (goHost F worldState verifyTag) s (.putState key val)).2.trace
        (shimStep Ej (goHost F worldState' verifyTag') s' (.putState key val')).2.trace ∧
      (shimStep Ei (goHost F worldState verifyTag) s (.putState key val)).1 =
        (shimStep Ej (goHost F worldState' verifyTag') s' (.putState key val')).1 := by
  have hevent : EventAlike E SameShape (.putState (cstr key) (base64Encode (encryptState Ei s.trace.length val)))
      (.putState (cstr key) (base64Encode (encryptState Ej s'.trace.length val'))) := by
    rw [hi.encryptState_eq, hj.encryptState_eq]
    exact .putState _ (.intro (hshape _ _ (Ei.length_readRand _) (Ej.length_readRand _)))
  dsimp only [shimStep, goHost]
  split_ifs
  · exact ⟨List.rel_append hs (.cons hevent .nil), rfl⟩
  · exact ⟨hs, rfl⟩

variable (uninit uninit' : ℤ) (h : WorldAlike E F worldState worldState')
include h

/-- Plans that are alike make ocalls that are alike, and have the same result unless they look at
the bids. -/
theorem PlanAlike.run {plan plan' : Plan} (hplan : PlanAlike plan plan') (name : Bytes) (s s' : Session τ)
    (hs : List.Forall₂ (EventAlike E SameShape) s.trace s'.trace) :
    List.Forall₂ (EventAlike E SameShape)
        ((plan.program Ei.libc uninit name).run (shimStep Ei (goHost F worldState verifyTag)) s).2.trace
        ((plan'.program Ej.libc uninit' name).run (shimStep Ej (goHost F worldState' verifyTag')) s').2.trace ∧
      (plan ≠ .tally →
        ((plan.program Ei.libc uninit name).run (shimStep Ei (goHost F worldState verifyTag)) s).1 =
          ((plan'.program Ej.libc uninit' name).run (shimStep Ej (goHost F worldState' verifyTag')) s').1) := by
  have hput (key val val' : Bytes)
      (hshape : ∀ iv iv' : Bytes, iv.length = 12 → iv'.length = 12 → SameShape (cstr key) (iv, val) (iv', val')) :
      List.Forall₂ (EventAlike E SameShape)
          (((Plan.put key val).program Ei.libc uninit name).run (shimStep Ei (goHost F worldState verifyTag)) s).2.trace
          (((Plan.put key val').program Ej.libc uninit' name).run (shimStep Ej (goHost F worldState' verifyTag')) s').2.trace ∧
        (((Plan.put key val).program Ei.libc uninit name).run (shimStep Ei (goHost F worldState verifyTag)) s).1 =
          (((Plan.put key val').program Ej.libc uninit' name).run (shimStep Ej (goHost F worldState' verifyTag')) s').1 := by
    have hstep := putState_alike F worldState worldState' hi hj verifyTag verifyTag' key hshape hs
    rw [Plan.program, Plan.program, putState, putState, Program.run_bind, Program.run_bind, Program.run_request,
      Program.run_request]
    generalize shimStep Ei (goHost F worldState verifyTag) s (.putState key val) = r at hstep ⊢
    generalize shimStep Ej (goHost F worldState' verifyTag') s' (.putState key val') = r' at hstep ⊢
    obtain ⟨answer, t⟩ := r
    obtain ⟨answer', t'⟩ := r'
    obtain ⟨htrace, hanswer⟩ := hstep
    dsimp only at hanswer
    subst hanswer
    cases answer with
    | none => exact ⟨htrace, rfl⟩
    | some u => exact ⟨htrace, rfl⟩
  cases hplan with
  | put key hkey hlen =>
    have hboth := hput key _ _ (fun iv iv' hiv hiv' => ⟨hiv, hiv', hlen, fun hc => by rw [hkey] at hc; cases hc⟩)
    exact ⟨hboth.1, fun _ => hboth.2⟩
  | same =>
    cases plan with
    | answer result => exact ⟨hs, fun _ => rfl⟩
    | put key val =>
      have hboth := hput key val val (fun iv iv' hiv hiv' => ⟨hiv, hiv', rfl, fun _ => rfl⟩)
      exact ⟨hboth.1, fun _ => hboth.2⟩
    | tally =>
      refine ⟨?_, fun hne => absurd rfl hne⟩
      have hreply := h.range (cstr (bidPrefix ++ name ++ str ".")) verifyTag verifyTag' s.trace s'.trace
      rw [tally_trace, tally_trace]
      generalize (goHost F worldState verifyTag).getStateByPartialCompositeKey s.trace _ = o at hreply ⊢
      generalize (goHost F worldState' verifyTag').getStateByPartialCompositeKey s'.trace _ = o' at hreply ⊢
      cases hreply with
      | none => exact hs
      | some hlen => exact List.rel_append hs (.cons (.getStateByPartialCompositeKey _ _ hlen) .nil)

/-- The operations make ocalls that are alike. -/
theorem Operation.Alike.run (hgcm : E.gcm.RoundTrip) {op op' : Operation} (hop : op.Alike E.libc op')
    (hplain : ∀ w ∈ op.names, PlainWord w) :
    List.Forall₂ (EventAlike E SameShape)
        ((op.program Ei.libc uninit).run (shimStep Ei (goHost F worldState verifyTag)) freshSession).2.trace
        ((op'.program Ej.libc uninit').run (shimStep Ej (goHost F worldState' verifyTag')) freshSession).2.trace ∧
      ((∀ name, op ≠ .eval name) →
        ((op.program Ei.libc uninit).run (shimStep Ei (goHost F worldState verifyTag)) freshSession).1 =
          ((op'.program Ej.libc uninit').run (shimStep Ej (goHost F worldState' verifyTag')) freshSession).1) := by
  have hn := hplain _ op.auctionName_mem
  have hreply := h.getState hgcm hi hj hn maxValueSize verifyTag verifyTag' [] []
  rw [Operation.program_eq, Operation.program_eq, ← hop.auctionName_eq, SecureChaincode.getState, Program.run_bind,
    Program.run_bind, Program.run_request, Program.run_request]
  dsimp only [shimStep, freshSession]
  rw [cstr_eq_self hn.no_nul]
  generalize (goHost F worldState verifyTag).getState [] op.auctionName maxValueSize = o at hreply ⊢
  generalize (goHost F worldState' verifyTag').getState [] op.auctionName maxValueSize = o' at hreply ⊢
  cases hreply with
  | none => exact ⟨.nil, fun _ => rfl⟩
  | @some reply reply' hread =>
    obtain ⟨hlen, hread⟩ := hread
    have hs : List.Forall₂ (EventAlike E SameShape)
        ([] ++ [Event.getState op.auctionName maxValueSize reply]) ([] ++ [Event.getState op.auctionName maxValueSize reply']) :=
      .cons (.getState _ _ hlen) .nil
    dsimp only
    rw [← hread]
    cases readValue Ei maxValueSize reply with
    | none => exact ⟨hs, fun _ => rfl⟩
    | some r =>
      dsimp only
      have hplan : Option.Rel PlanAlike (op.plan Ei.libc r.1 r.2) (op'.plan Ej.libc r.1 r.2) := by
        rw [hi.libc_eq, hj.libc_eq]
        exact hop.plan hplain r.1 r.2
      generalize hp : op.plan Ei.libc r.1 r.2 = o at hplan ⊢
      generalize op'.plan Ej.libc r.1 r.2 = o' at hplan ⊢
      cases hplan with
      | none => exact ⟨hs, fun _ => rfl⟩
      | some hplan =>
        obtain ⟨htrace, hresult⟩ := hplan.run hi hj verifyTag verifyTag' uninit uninit' h op.auctionName
          ⟨_, _, _⟩ ⟨_, _, _⟩ hs
        refine ⟨htrace, fun hne => hresult ?_⟩
        rintro rfl
        obtain ⟨⟨name, heq⟩, -⟩ := Operation.plan_tally hp
        exact hne name heq

end

theorem respond_run (step : Session τ → (c : Call) → Option c.Answer × Session τ) (p : Chaincode Bytes) (n : ℕ)
    (s : Session τ) :
    (p >>= respond n).run step s =
      ((p.run step s).1.map (fun result => if n < result.length then none else some result), (p.run step s).2) := by
  rw [Program.run_bind]
  rcases p.run step s with ⟨answer, t⟩
  cases answer with
  | none => rfl
  | some result =>
    dsimp only [respond, Option.map_some]
    split_ifs <;> rfl

/-- The run of an invocation, by its operation. -/
theorem Invocation.simulated_eq {i : Invocation η τ σ} {op : Operation} (hop : i.operation = some op) (worldState : Kvs) :
    i.simulated F worldState =
      (((op.program i.enclave.libc i.uninit).run (shimStep i.enclave (goHost F worldState i.verifyTag)) freshSession).1.map
          (fun result => if i.responseLenIn < result.length then none else some result),
        ((op.program i.enclave.libc i.uninit).run (shimStep i.enclave (goHost F worldState i.verifyTag)) freshSession).2) := by
  rcases i.simulated_cases (F := F) worldState with ⟨text, op', hread, hop', hrun⟩ | ⟨hnone, -⟩
  · cases hop.symm.trans hop'
    rw [hrun, auctionInvoke_eq i.uninit i.responseLenIn hread, respond_run]
  · rw [hop] at hnone
    cases hnone

/-- Step lemma: the peer sees the same of both invocations, up to the result of an evaluation, and
is left with world states that look the same. -/
theorem Disguised.step {i j : Invocation η τ σ} (hij : Disguised E i j) (hgcm : E.gcm.RoundTrip)
    (h : WorldAlike E F worldState worldState')
    (heval : i.evaluates = true → (i.simulated F worldState).1 = (j.simulated F worldState').1) :
    i.peerView F worldState = j.peerView F worldState' ∧ WorldAlike E F (i.commit F worldState) (j.commit F worldState') := by
  obtain ⟨op, op', hopi, hopj, hop, hplain⟩ := hij.operation
  obtain ⟨htrace, hresult⟩ := hop.run hij.left hij.right i.verifyTag j.verifyTag i.uninit j.uninit h hgcm hplain
  have htrace' : List.Forall₂ (EventAlike E SameShape) (i.simulated F worldState).2.trace
      (j.simulated F worldState').2.trace := by
    rw [Invocation.simulated_eq hopi, Invocation.simulated_eq hopj]
    exact htrace
  have hresponse : (i.simulated F worldState).1 = (j.simulated F worldState').1 := by
    by_cases hevaluates : i.evaluates = true
    · exact heval hevaluates
    · have hne : ∀ name, op ≠ .eval name := by
        rintro name rfl
        rw [Invocation.evaluates, hopi] at hevaluates
        exact hevaluates rfl
      rw [Invocation.simulated_eq hopi, Invocation.simulated_eq hopj, hresult hne, hij.responseLenIn]
  refine ⟨?_, ?_⟩
  · rw [Invocation.peerView, Invocation.peerView, h.outline_eq, hij.argsLen, hij.pk, hresponse,
      views_eq_of_alike htrace']
  · rw [Invocation.commit, Invocation.commit, hij.version]
    generalize i.simulated F worldState = r at htrace' hresponse ⊢
    generalize j.simulated F worldState' = r' at htrace' hresponse ⊢
    obtain ⟨answer, s⟩ := r
    obtain ⟨answer', s'⟩ := r'
    dsimp only at hresponse
    subst hresponse
    rcases answer with _ | _ | response
    · exact h
    · exact h
    · exact h.commitWrites htrace' j.version

theorem Disguised.evaluates_eq {i j : Invocation η τ σ} (hij : Disguised E i j) : i.evaluates = j.evaluates := by
  obtain ⟨op, op', hopi, hopj, hop, -⟩ := hij.operation
  rw [Invocation.evaluates, Invocation.evaluates, hopi, hopj]
  cases hop <;> rfl

/-- Run lemma. -/
theorem peerViews_eq {is js : List (Invocation η τ σ)} (hgcm : E.gcm.RoundTrip) (hij : List.Forall₂ (Disguised E) is js)
    (h : WorldAlike E F worldState worldState') (heval : evaluations F worldState is = evaluations F worldState' js) :
    peerViews F worldState is = peerViews F worldState' js ∧
      WorldAlike E F (commitAll F worldState is) (commitAll F worldState' js) := by
  induction hij generalizing worldState worldState' with
  | nil => exact ⟨rfl, h⟩
  | @cons i j is js hpair _ ih =>
    rw [evaluations, evaluations, ← hpair.evaluates_eq] at heval
    -- the result of this evaluation, and those of the later ones
    have hsplit : (i.evaluates = true → (i.simulated F worldState).1 = (j.simulated F worldState').1) ∧
        evaluations F (i.commit F worldState) is = evaluations F (j.commit F worldState') js := by
      cases hevaluates : i.evaluates with
      | false =>
        rw [hevaluates] at heval
        refine ⟨fun hc => ?_, heval⟩
        cases hc
      | true =>
        rw [hevaluates] at heval
        exact ⟨fun _ => (List.cons.inj heval).1, (List.cons.inj heval).2⟩
    obtain ⟨hview, hnext⟩ := hpair.step hgcm h hsplit.1
    obtain ⟨hviews, hlast⟩ := ih hnext hsplit.2
    refine ⟨?_, hlast⟩
    rw [peerViews, peerViews, hview, hviews]

end

/-- An invocation with arguments that are encrypted for the enclave. -/
def encryptedInvocation (args : String) : Invocation Bytes Bool Unit where
  enclave := sharedEnclave
  verifyTag _ _ := true
  uninit := 0
  args := base64Encode ((sharedMessage (str args)).toOption.getD [])
  pk := base64Encode (List.replicate 64 1)
  responseLenIn := 1024
  version := ⟨1, 0⟩

/-- An auction with a bid, which is evaluated too early. -/
def hastyDay (bid : String) : List (Invocation Bytes Bool Unit) :=
  [encryptedInvocation "[\"create\",\"a\"]", encryptedInvocation bid, encryptedInvocation "[\"eval\",\"a\"]"]

theorem disguised_encrypted {args args' : String} {op op' : Operation}
    (h : (encryptedInvocation args).operation = some op) (h' : (encryptedInvocation args').operation = some op')
    (hlen : (encryptedInvocation args).args.length = (encryptedInvocation args').args.length)
    (hop : op.Alike signedLibc op') (hplain : ∀ w ∈ op.names, PlainWord w) :
    Disguised sharedEnclave (encryptedInvocation args) (encryptedInvocation args') := by
  have hpk : cstr (base64Encode (List.replicate 64 1)) ≠ [] := by decide +kernel
  exact ⟨⟨rfl, rfl, rfl⟩, ⟨rfl, rfl, rfl⟩, hpk, rfl, hlen, rfl, rfl, op, op', h, h', hop, hplain⟩

end SecureChaincode
