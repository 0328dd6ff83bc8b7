/-
# Story.App.ProcessProposal -- the handler that votes on a proposal

CometBFT hands every proposed block to this handler. It asks for a quorum of the votes of
the last commit, for one transaction with nothing in it but a message, and for that
message to be a payload which the engine module takes. Everything else is answered with
a rejection; the handler never returns an error.

A transaction is what the interfaces the handler asks for return. A getter of the SDK that
may panic gives a reason instead of a value.
-/
import Story.EvmEngine.Server

namespace Story.App

open Story.Effect Story.Errors Story.Eth Story.Sdk
open Story.EvmEngine (MsgExecutionPayload Wiring Engine Node proposalExecutionPayload)

variable {σ : Type}

/-! ## Requests -/

/-- `cmttypes.BlockIDFlag`. -/
inductive BlockIDFlag
  | unknown
  | absent
  | commit
  | nil
  deriving DecidableEq

structure VoteInfo where
  power : Int64
  blockIdFlag : BlockIDFlag
  deriving DecidableEq

/-- `abci.RequestProcessProposal`, with the votes of `ProposedLastCommit`. -/
structure RequestProcessProposal where
  height : Int
  txs : List Bytes
  votes : List VoteInfo

/-- The status of the response; a rejection is logged with an error. -/
inductive Response
  | accept
  | reject (logged : GoError)
  deriving DecidableEq

/-! ## Transactions -/

/-- `sdk.MsgTypeURL(&evmenginetypes.MsgExecutionPayload{})`. -/
def payloadTypeURL : String := "/story.evmengine.v1.types.MsgExecutionPayload"

/-- A message. Every type of messages has a URL of its own. -/
inductive Msg
  | executionPayload (msg : MsgExecutionPayload)
  | other (url : { url : String // url ≠ payloadTypeURL })

/-- `sdk.MsgTypeURL`. -/
def Msg.typeURL : Msg → String
  | .executionPayload _ => payloadTypeURL
  | .other url => url

/-- `GetProtoTx()`; a pointer may be nil. -/
structure ProtoTx where
  signatures : List Bytes
  /-- Is `AuthInfo.Fee` set? -/
  authInfo : Option Bool

/-- What the methods of `signing.Tx` return; slices and pointers may be nil. -/
structure StandardTx where
  getSignaturesV2 : Except GoError (List Bytes)
  getMemo : String
  getFee : Option (List Coin)
  feePayer : Except String Bytes
  feeGranter : Except String (Option Bytes)

/-- A decoded transaction: what it is when it is asserted to be a `protoTxProvider`, a
`signing.Tx` and a `TipTx`, and its messages. -/
structure Tx where
  proto : Option ProtoTx
  standard : Option StandardTx
  getTip : Option (Option Coin)
  getMsgs : List Msg

/-! ## The handler -/

def check (c : Prop) [Decidable c] (msg : String) : Prog σ Unit :=
  if c then pure () else fail (.new msg)

/-- A type assertion with an error for the case that it fails. -/
def assertType {α : Type} (x : Option α) (msg : String) : Prog σ α :=
  match x with
  | none => fail (.new msg)
  | some a => pure a

/-- A getter that may panic. -/
def getter {α : Type} (x : Except String α) : Prog σ α :=
  match x with
  | .error why => goPanic why
  | .ok a => pure a

/-- `validateTx`; `moduleAddress` is that of the engine module. -/
def validateTx (moduleAddress : Bytes) (tx : Tx) : Prog σ Unit := do
  let protoTx ← assertType tx.proto "invalid proto tx"
  check (protoTx.signatures = []) "disallowed signatures in tx"
  let standardTx ← assertType tx.standard "invalid standard tx message"
  let signaturesV2 ← wrapErr "get signatures from tx" (ofExcept standardTx.getSignaturesV2)
  check (signaturesV2 = []) "disallowed signatures in tx"
  check (standardTx.getMemo = "") "disallowed memo in tx"
  let hasFee ← getter (protoTx.authInfo.elim (.error "nil pointer dereference") .ok)
  check (hasFee = true ∧ standardTx.getFee = none) "invalid fee in tx"
  let payer ← getter standardTx.feePayer
  check (payer = moduleAddress) "invalid payer in tx"
  let feeGranter ← getter standardTx.feeGranter
  check (feeGranter = none) "disallowed fee granter in tx"
  check (tx.getTip.getD none = none) "disallowed tip in tx"

/-- A handler of the router. -/
abbrev Handler (σ : Type) := Ctx → Msg → Prog σ Unit

/-- `baseapp.MsgServiceRouter`, by what `Handler` returns. -/
abbrev Router (σ : Type) := Msg → Option (Handler σ)

/-- `makeProcessProposalRouter`: only the proposal server of the engine module. -/
def makeProcessProposalRouter {W : Type} (A : Wiring W) (E : Engine) (fuel : Nat) :
    Router (Node W)
  | .executionPayload msg => some fun ctx _ => proposalExecutionPayload A E fuel ctx msg
  | .other _ => none

def rejectProposal (err : GoError) : Prog σ Response := pure (.reject err)

/-- The sums of the powers of all votes and of the commit votes, in `int64`. -/
def tally (votes : List VoteInfo) : Int64 × Int64 :=
  votes.foldl
    (fun powers vote =>
      (powers.1 + vote.power,
        if vote.blockIdFlag ≠ .commit then powers.2 else powers.2 + vote.power))
    (0, 0)

/-- `expectedMsgCounts`, by its entries. -/
abbrev MsgCounts := List (String × Int)

def expectedMsgCounts : MsgCounts := [(payloadTypeURL, 1)]

/-- `expectedMsgCounts[typeURL]--`. -/
def MsgCounts.decrement (counts : MsgCounts) (typeURL : String) : MsgCounts :=
  counts.map fun entry => if entry.1 = typeURL then (entry.1, entry.2 - 1) else entry

/-- The loop over the messages, and the check after it. -/
def routeMsgs (router : Router σ) (ctx : Ctx) : MsgCounts → List Msg → Prog σ Response
  | counts, [] =>
      if counts.any fun entry => entry.2 ≠ 0 then
        rejectProposal (.new "message type not included with expected times")
      else pure .accept
  | counts, msg :: rest =>
      match counts.lookup msg.typeURL with
      | none => rejectProposal (.new "unexpected message type")
      | some i =>
          if i ≤ 0 then rejectProposal (.new "message type included too many times")
          else match router msg with
            | none => rejectProposal (.new "msg handler not found [BUG]")
            | some handler => do
                match ← attempt (handler ctx msg) with
                | .error err => rejectProposal (err.wrap "execute message")
                | .ok () => routeMsgs router ctx (counts.decrement msg.typeURL) rest

/-- `makeProcessProposalHandler`. -/
def makeProcessProposalHandler (router : Router σ) (txDecoder : Bytes → Except GoError Tx)
    (moduleAddress : Bytes) (ctx : Ctx) (req : RequestProcessProposal) : Prog σ Response :=
  if req.height = 1 then
    if 0 < req.txs.length then rejectProposal (.new "first proposal not empty")
    else pure .accept
  else match req.txs with
    | [rawTX] =>
        if (tally req.votes).1 * 2 / 3 ≥ (tally req.votes).2 then
          rejectProposal (.new "proposed doesn't include quorum votes extensions")
        else match txDecoder rawTX with
          | .error err => rejectProposal (err.wrap "decode transaction")
          | .ok tx => do
              match ← attempt (validateTx moduleAddress tx) with
              | .error err => rejectProposal (err.wrap "validate tx")
              | .ok () => routeMsgs router ctx expectedMsgCounts tx.getMsgs
    | _ => rejectProposal (.new "unexpected transactions in proposal")

/-! ## The quorum -/

/-- The power of all votes. -/
def totalPower (votes : List VoteInfo) : Int := (votes.map fun v => v.power.toInt).sum

/-- The power of the votes flagged as commits. -/
def committedPower (votes : List VoteInfo) : Int :=
  ((votes.filter fun v => v.blockIdFlag = .commit).map fun v => v.power.toInt).sum

/-- `math.MaxInt64`. -/
def maxInt64 : Int := 2 ^ 63 - 1

theorem totalPower_nonneg {votes : List VoteInfo} (h : ∀ v ∈ votes, 0 ≤ v.power.toInt) :
    0 ≤ totalPower votes := by
  apply List.sum_nonneg
  intro x hx
  obtain ⟨v, hv, rfl⟩ := List.mem_map.mp hx
  exact h v hv

theorem toInt_add_of_le {a b : Int64} (ha : 0 ≤ a.toInt) (hb : 0 ≤ b.toInt)
    (h : a.toInt + b.toInt ≤ maxInt64) : (a + b).toInt = a.toInt + b.toInt := by
  unfold maxInt64 at h
  rw [Int64.toInt_add]
  apply Int.bmod_eq_of_le <;> omega

/-- **The loop over the votes** from sums `a` and `b` on. -/
theorem toInt_foldl_votes {votes : List VoteInfo} (hnonneg : ∀ v ∈ votes, 0 ≤ v.power.toInt)
    {a b : Int64} (hb : 0 ≤ b.toInt) (hba : b.toInt ≤ a.toInt)
    (hle : a.toInt + totalPower votes ≤ maxInt64) :
    let sums := votes.foldl
      (fun powers vote =>
        (powers.1 + vote.power,
          if vote.blockIdFlag ≠ .commit then powers.2 else powers.2 + vote.power)) (a, b)
    sums.1.toInt = a.toInt + totalPower votes ∧ sums.2.toInt = b.toInt + committedPower votes := by
  induction votes generalizing a b with
  | nil => simp [totalPower, committedPower]
  | cons v votes ih =>
      have hv : 0 ≤ v.power.toInt := hnonneg v List.mem_cons_self
      have hrest : ∀ w ∈ votes, 0 ≤ w.power.toInt := fun w hw =>
        hnonneg w (List.mem_cons_of_mem v hw)
      have htail := totalPower_nonneg hrest
      have htotal : totalPower (v :: votes) = v.power.toInt + totalPower votes := by
        simp [totalPower]
      rw [htotal] at hle ⊢
      have ha : (a + v.power).toInt = a.toInt + v.power.toInt :=
        toInt_add_of_le (by omega) hv (by omega)
      by_cases hflag : v.blockIdFlag = .commit
      · have hb' : (b + v.power).toInt = b.toInt + v.power.toInt :=
          toInt_add_of_le hb hv (by omega)
        have hstep := ih hrest (a := a + v.power) (b := b + v.power) (by omega) (by omega)
          (by omega)
        simp only [List.foldl_cons, hflag, ne_eq, not_true_eq_false, if_false] at hstep ⊢
        rw [hstep.1, hstep.2, ha, hb']
        simp [committedPower, hflag]
        omega
      · have hstep := ih hrest (a := a + v.power) (b := b) hb (by omega) (by omega)
        simp only [List.foldl_cons, hflag, ne_eq, not_false_eq_true, if_true] at hstep ⊢
        rw [hstep.1, hstep.2, ha]
        simp [committedPower, hflag]
        omega

/-- **The test of the quorum** is exact. -/
theorem quorum_iff {votes : List VoteInfo} (hnonneg : ∀ v ∈ votes, 0 ≤ v.power.toInt)
    (hle : totalPower votes ≤ maxInt64 / 8) :
    ¬((tally votes).1 * 2 / 3 ≥ (tally votes).2) ↔
      3 * committedPower votes > 2 * totalPower votes := by
  have hmax : maxInt64 / 8 < 2 ^ 60 := by decide
  have hsums := toInt_foldl_votes hnonneg (a := 0) (b := 0) (by decide) (by decide)
    (by have : maxInt64 / 8 ≤ maxInt64 := by decide
        simp only [Int64.toInt_zero]
        omega)
  simp only [Int64.toInt_zero, zero_add] at hsums
  have htotal : (tally votes).1.toInt = totalPower votes := hsums.1
  have hvoted : (tally votes).2.toInt = committedPower votes := hsums.2
  have hpos := totalPower_nonneg hnonneg
  -- the bound on the total power keeps the `int64` product from wrapping
  have htwice : ((tally votes).1 * 2).toInt = totalPower votes * 2 := by
    rw [Int64.toInt_mul, htotal]
    apply Int.bmod_eq_of_le
    · show -(2 ^ 64 / 2) ≤ totalPower votes * 2
      omega
    · show totalPower votes * 2 < (2 ^ 64 + 1) / 2
      omega
  have hthird : ((tally votes).1 * 2 / 3).toInt = totalPower votes * 2 / 3 := by
    rw [Int64.toInt_div, htwice]
    show ((totalPower votes * 2).tdiv 3).bmod (2 ^ 64) = _
    rw [Int.tdiv_eq_ediv_of_nonneg (by omega)]
    apply Int.bmod_eq_of_le
    · show -(2 ^ 64 / 2) ≤ totalPower votes * 2 / 3
      omega
    · show totalPower votes * 2 / 3 < (2 ^ 64 + 1) / 2
      omega
  rw [ge_iff_le, Int64.le_iff_toInt_le, hthird, hvoted]
  omega

/-! ## The transaction -/

@[simp] theorem returns_check {c : Prop} [Decidable c] {msg : String} {s t : σ} {u : Unit} :
    Returns (check c msg) s u t ↔ c ∧ s = t := by
  unfold check
  split <;> simp_all

@[simp] theorem returns_assertType {α : Type} {x : Option α} {msg : String} {s t : σ} {a : α} :
    Returns (assertType x msg) s a t ↔ x = some a ∧ s = t := by
  cases x <;> simp [assertType]

@[simp] theorem returns_getter {α : Type} {x : Except String α} {s t : σ} {a : α} :
    Returns (getter x) s a t ↔ x = .ok a ∧ s = t := by
  cases x <;> simp [getter]

/-- A transaction with nothing in it but messages: no signatures, no memo, a fee entry without
coins, paid by the module, no fee granter and no tip. -/
structure Bare (moduleAddress : Bytes) (tx : Tx) (protoTx : ProtoTx) (standardTx : StandardTx) :
    Prop where
  proto : tx.proto = some protoTx
  standard : tx.standard = some standardTx
  signatures : protoTx.signatures = []
  signaturesV2 : standardTx.getSignaturesV2 = .ok []
  memo : standardTx.getMemo = ""
  feeEntry : protoTx.authInfo = some true
  noCoins : standardTx.getFee = none
  payer : standardTx.feePayer = .ok moduleAddress
  granter : standardTx.feeGranter = .ok none
  tip : tx.getTip.getD none = none

theorem returns_validateTx {moduleAddress : Bytes} {tx : Tx} {s t : σ} {u : Unit} :
    Returns (validateTx moduleAddress tx) s u t ↔
      (∃ protoTx standardTx, Bare moduleAddress tx protoTx standardTx) ∧ s = t := by
  -- no step changes the state, so what is left of the program are its checks
  simp only [validateTx, returns_bind, returns_assertType, returns_check, returns_wrapErr,
    returns_ofExcept, returns_getter, and_assoc, exists_and_left, exists_eq_left', exists_const]
  constructor
  · rintro ⟨protoTx, hproto, hsig, standardTx, hstandard, _, hv2, rfl, hmemo, _, hauth, rfl, hfee,
      _, hpayer, rfl, _, hgranter, rfl, htip, rfl⟩
    have hauth' : protoTx.authInfo = some true := by
      cases ha : protoTx.authInfo with
      | none => simp [ha] at hauth
      | some b =>
          rw [ha] at hauth
          exact congrArg some (Except.ok.inj hauth)
    exact ⟨⟨protoTx, standardTx, hproto, hstandard, hsig, hv2, hmemo, hauth', hfee, hpayer,
      hgranter, htip⟩, rfl⟩
  · rintro ⟨⟨protoTx, standardTx, h⟩, rfl⟩
    exact ⟨protoTx, h.proto, h.signatures, standardTx, h.standard, [], h.signaturesV2, rfl, h.memo,
      true, by rw [h.feeEntry]; rfl, rfl, h.noCoins, moduleAddress, h.payer, rfl, none, h.granter,
      rfl, h.tip, rfl⟩

/-! ## The messages -/

variable {router : Router σ} {ctx : Ctx} {s t : σ}

/-- One message, a payload that the routed handler takes. -/
def SinglePayload (router : Router σ) (ctx : Ctx) (s t : σ) (msgs : List Msg) : Prop :=
  ∃ msg handler, msgs = [.executionPayload msg] ∧
    router (.executionPayload msg) = some handler ∧
    Returns (handler ctx (.executionPayload msg)) s () t

@[simp] theorem lookup_payload (count : Int) (msg : MsgExecutionPayload) :
    [(payloadTypeURL, count)].lookup (Msg.executionPayload msg).typeURL = some count := by
  simp [Msg.typeURL, List.lookup]

@[simp] theorem lookup_other (count : Int) (url : { url : String // url ≠ payloadTypeURL }) :
    [(payloadTypeURL, count)].lookup (Msg.other url).typeURL = none := by
  have hne : (url.1 == payloadTypeURL) = false := beq_eq_false_iff_ne.mpr url.2
  simp [Msg.typeURL, List.lookup, hne]

@[simp] theorem decrement_payload (count : Int) (msg : MsgExecutionPayload) :
    MsgCounts.decrement [(payloadTypeURL, count)] (Msg.executionPayload msg).typeURL
      = [(payloadTypeURL, count - 1)] := by
  simp [MsgCounts.decrement, Msg.typeURL]

/-- A message of another type is rejected. -/
theorem routeMsgs_other {count : Int} {url : { url : String // url ≠ payloadTypeURL }}
    {rest : List Msg} :
    ¬Returns (routeMsgs router ctx [(payloadTypeURL, count)] (.other url :: rest)) s .accept t := by
  unfold routeMsgs
  rw [lookup_other]
  simp [rejectProposal]

/-- Once the payload has been counted, only the end is accepted. -/
theorem routeMsgs_counted {msgs : List Msg} :
    Returns (routeMsgs router ctx [(payloadTypeURL, 0)] msgs) s .accept t ↔ msgs = [] ∧ s = t := by
  cases msgs with
  | nil => simp [routeMsgs]
  | cons msg rest => cases msg with
    | other url => simp [routeMsgs_other]
    | executionPayload msg =>
        unfold routeMsgs
        rw [lookup_payload]
        simp [rejectProposal]

/-- **The loop accepts** one payload, and nothing else. -/
theorem routeMsgs_expected {msgs : List Msg} :
    Returns (routeMsgs router ctx expectedMsgCounts msgs) s .accept t ↔
      SinglePayload router ctx s t msgs := by
  unfold expectedMsgCounts
  cases msgs with
  | nil => simp [routeMsgs, rejectProposal, SinglePayload]
  | cons msg rest => cases msg with
    | other url => simp [routeMsgs_other, SinglePayload]
    | executionPayload msg =>
        unfold routeMsgs
        rw [lookup_payload]
        cases hrouter : router (.executionPayload msg) with
        | none => simp [rejectProposal, SinglePayload, hrouter]
        | some handler =>
            have hcount : ¬(1 : Int) ≤ 0 := by decide
            simp only [decrement_payload, if_neg hcount, returns_bind]
            constructor
            · rintro ⟨result, s', hhandler, hrest⟩
              cases result with
              | error err => simp [rejectProposal] at hrest
              | ok u =>
                  -- the count is used up, so there is no second message
                  obtain ⟨rfl, rfl⟩ := routeMsgs_counted.mp hrest
                  exact ⟨msg, handler, rfl, hrouter, returns_attempt_ok.mp hhandler⟩
            · rintro ⟨msg', handler', hmsgs, hrouter', hhandler⟩
              obtain ⟨hmsg, rfl⟩ := List.cons.inj hmsgs
              obtain rfl := Msg.executionPayload.inj hmsg
              obtain rfl := Option.some.inj (hrouter.symm.trans hrouter')
              exact ⟨.ok (), t, returns_attempt_ok.mpr hhandler,
                routeMsgs_counted.mpr ⟨rfl, rfl⟩⟩

/-! ## The vote -/

variable {txDecoder : Bytes → Except GoError Tx} {moduleAddress : Bytes}
  {req : RequestProcessProposal}

/-- A proposal that should be accepted: the first one when it is empty; a later one when it has
a quorum and one transaction, which is bare and has one payload that the handler takes. -/
def Acceptable (router : Router σ) (txDecoder : Bytes → Except GoError Tx)
    (moduleAddress : Bytes) (ctx : Ctx) (s : σ) (req : RequestProcessProposal) : Prop :=
  req.height = 1 ∧ req.txs = [] ∨
  req.height ≠ 1 ∧ ∃ rawTX tx protoTx standardTx t, req.txs = [rawTX] ∧
    3 * committedPower req.votes > 2 * totalPower req.votes ∧ txDecoder rawTX = .ok tx ∧
    Bare moduleAddress tx protoTx standardTx ∧ SinglePayload router ctx s t tx.getMsgs

theorem routeMsgs_no_error {counts : MsgCounts} {msgs : List Msg} {e : GoError} :
    ¬Fails (routeMsgs router ctx counts msgs) s (.err e) t := by
  induction msgs generalizing counts s with
  | nil =>
      unfold routeMsgs
      split <;> simp [rejectProposal]
  | cons msg rest ih =>
      unfold routeMsgs
      split
      · simp [rejectProposal]
      · split
        · simp [rejectProposal]
        · split
          · simp [rejectProposal]
          · rw [fails_bind]
            rintro (hfails | ⟨result, s', _, hfails⟩)
            · exact (fails_attempt.mp hfails).2 e rfl
            · cases result with
              | error err => simp [rejectProposal] at hfails
              | ok u => exact ih hfails

/-- **The handler never returns an error.** -/
theorem handler_no_error {e : GoError} :
    ¬Fails (makeProcessProposalHandler router txDecoder moduleAddress ctx req) s (.err e) t := by
  unfold makeProcessProposalHandler
  split
  · split <;> simp [rejectProposal]
  · split
    · split
      · simp [rejectProposal]
      · split
        · simp [rejectProposal]
        · rw [fails_bind]
          rintro (hfails | ⟨result, s', _, hfails⟩)
          · exact (fails_attempt.mp hfails).2 e rfl
          · cases result with
            | error err => simp [rejectProposal] at hfails
            | ok u => exact routeMsgs_no_error hfails
    · simp [rejectProposal]

/-- A later proposal with one transaction. -/
theorem returns_accept_of_single {rawTX : Bytes} (hheight : req.height ≠ 1)
    (htxs : req.txs = [rawTX]) (hnonneg : ∀ v ∈ req.votes, 0 ≤ v.power.toInt)
    (hle : totalPower req.votes ≤ maxInt64 / 8) :
    Returns (makeProcessProposalHandler router txDecoder moduleAddress ctx req) s .accept t ↔
      3 * committedPower req.votes > 2 * totalPower req.votes ∧
      ∃ tx, txDecoder rawTX = .ok tx ∧
        (∃ protoTx standardTx, Bare moduleAddress tx protoTx standardTx) ∧
        SinglePayload router ctx s t tx.getMsgs := by
  unfold makeProcessProposalHandler
  rw [if_neg hheight, htxs]
  simp only
  rw [← quorum_iff hnonneg hle]
  split
  next hquorum => simp [rejectProposal, hquorum]
  next hquorum =>
    cases hdecode : txDecoder rawTX with
    | error err => simp [rejectProposal]
    | ok tx =>
        simp only [returns_bind]
        constructor
        · rintro ⟨result, s', hvalid, hrest⟩
          cases result with
          | error err => simp [rejectProposal] at hrest
          | ok u =>
              obtain ⟨hbare, rfl⟩ := returns_validateTx.mp (returns_attempt_ok.mp hvalid)
              exact ⟨hquorum, tx, rfl, hbare, routeMsgs_expected.mp hrest⟩
        · rintro ⟨_, tx', htx, hbare, hpayload⟩
          obtain rfl := Except.ok.inj htx
          exact ⟨.ok (), s, returns_attempt_ok.mpr (returns_validateTx.mpr ⟨hbare, rfl⟩),
            routeMsgs_expected.mpr hpayload⟩

/-- **What is accepted** is what should be. -/
theorem returns_accept_iff (hnonneg : ∀ v ∈ req.votes, 0 ≤ v.power.toInt)
    (hle : totalPower req.votes ≤ maxInt64 / 8) :
    (∃ t, Returns (makeProcessProposalHandler router txDecoder moduleAddress ctx req) s .accept t) ↔
      Acceptable router txDecoder moduleAddress ctx s req := by
  unfold Acceptable
  by_cases hheight : req.height = 1
  · simp only [makeProcessProposalHandler, if_pos hheight]
    cases htxs : req.txs with
    | nil => simp [hheight]
    | cons rawTX rest => simp [hheight, rejectProposal]
  · match htxs : req.txs with
    | [] => simp [makeProcessProposalHandler, htxs, rejectProposal, hheight]
    | [rawTX] =>
        simp only [returns_accept_of_single hheight htxs hnonneg hle]
        constructor
        · rintro ⟨t, hquorum, tx, htx, ⟨protoTx, standardTx, hbare⟩, hpayload⟩
          exact .inr ⟨hheight, rawTX, tx, protoTx, standardTx, t, rfl, hquorum, htx, hbare,
            hpayload⟩
        · rintro (⟨hone, _⟩ | ⟨_, rawTX', tx, protoTx, standardTx, t, heq, hquorum, htx, hbare,
            hpayload⟩)
          · exact absurd hone hheight
          · obtain rfl := (List.cons.inj heq).1
            exact ⟨t, hquorum, tx, htx, ⟨protoTx, standardTx, hbare⟩, hpayload⟩
    | _ :: _ :: _ =>
        simp [makeProcessProposalHandler, htxs, rejectProposal, hheight]

/-- **A proposal is accepted exactly when it should be**, is rejected in all other cases, and
no error is ever returned. -/
theorem proposal_vote_exact (hnonneg : ∀ v ∈ req.votes, 0 ≤ v.power.toInt)
    (hle : totalPower req.votes ≤ maxInt64 / 8) :
    (∀ e t, ¬Fails (makeProcessProposalHandler router txDecoder moduleAddress ctx req) s
      (.err e) t) ∧
    ∀ r t, Returns (makeProcessProposalHandler router txDecoder moduleAddress ctx req) s r t →
      (r = .accept ↔ Acceptable router txDecoder moduleAddress ctx s req) ∧
      (¬Acceptable router txDecoder moduleAddress ctx s req → ∃ err, r = .reject err) := by
  refine ⟨fun e t => handler_no_error, ?_⟩
  intro r t hret
  have haccept : r = .accept ↔ Acceptable router txDecoder moduleAddress ctx s req := by
    rw [← returns_accept_iff hnonneg hle]
    constructor
    · rintro rfl
      exact ⟨t, hret⟩
    · rintro ⟨t', hret'⟩
      exact (hret.unique hret').1
  refine ⟨haccept, ?_⟩
  intro hnot
  cases r with
  | accept => exact absurd (haccept.mp rfl) hnot
  | reject err => exact ⟨err, rfl⟩

/-- A bare transaction, paid by the module with the address `[7]`. -/
def bareTx (msgs : List Msg) : Tx where
  proto := some ⟨[], some true⟩
  standard := some ⟨.ok [], "", none, .ok [7], .ok none⟩
  getTip := some none
  getMsgs := msgs

/-- A router whose handler takes every payload. -/
def openRouter : Router Unit
  | .executionPayload _ => some fun _ _ => pure ()
  | .other _ => none

def emptyPayload : Msg := .executionPayload ⟨"evmengine", none, [], none⟩

/-- A proposal with one transaction, and three of four votes of power 5 for the last block. -/
def threeOfFour : RequestProcessProposal where
  height := 99
  txs := [[1]]
  votes := [⟨5, .commit⟩, ⟨5, .absent⟩, ⟨5, .commit⟩, ⟨5, .commit⟩]

def sampleBlock : Ctx := ⟨"story-1", 99, 0, [], .other⟩

/-- Three of four votes are a quorum: the proposal is accepted with one payload, and rejected
with two. -/
theorem three_of_four_accepted :
    Acceptable openRouter (fun _ => .ok (bareTx [emptyPayload])) [7] sampleBlock () threeOfFour ∧
      ¬Acceptable openRouter (fun _ => .ok (bareTx [emptyPayload, emptyPayload])) [7] sampleBlock
        () threeOfFour := by
  have hone : Returns (makeProcessProposalHandler openRouter
      (fun _ => .ok (bareTx [emptyPayload])) [7] sampleBlock threeOfFour) () .accept () := rfl
  have htwo : Returns (makeProcessProposalHandler openRouter
      (fun _ => .ok (bareTx [emptyPayload, emptyPayload])) [7] sampleBlock threeOfFour) ()
      (.reject (.new "message type included too many times")) () := rfl
  constructor
  · exact ((proposal_vote_exact (by decide) (by decide)).2 _ _ hone).1.mp rfl
  · intro hacceptable
    exact absurd (((proposal_vote_exact (by decide) (by decide)).2 _ _ htwo).1.mpr hacceptable)
      nofun

end Story.App
