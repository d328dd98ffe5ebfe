import QuorumLedger.Proofs.Consensus.Following
import QuorumLedger.Proofs.Consensus.Stored
import QuorumLedger.Proofs.Pool.Journal

namespace QuorumLedger

namespace Message

-- What the check of a message's seal looks at.
def signed? (m : Message) : Option (Signed ValidatorId) :=
  m.block.sealedBy.map fun s =>
    ⟨s.signer, (Block.sealDigest m.blockId s).toList, s.signature, s.nextKey⟩

theorem checkSeal_snd (m : Message) (c : KeyChain ValidatorId) :
    (m.block.checkSeal c).2 = m.signed?.toList.foldl .next c := by
  unfold Block.checkSeal signed?
  cases m.block.sealedBy <;> rfl

end Message

theorem KeyChain.follow_eq_foldl (c : KeyChain ValidatorId) (messages : List Message) :
    c.follow messages = (messages.filterMap Message.signed?).foldl .next c := by
  induction messages generalizing c with
  | nil => rfl
  | cons m rest ih =>
      calc
        c.follow (m :: rest) = (m.block.checkSeal c).2.follow rest := rfl
        _ = (rest.filterMap Message.signed?).foldl .next (m.signed?.toList.foldl .next c) := by
          rw [ih, m.checkSeal_snd]
        _ = ((m :: rest).filterMap Message.signed?).foldl .next c := by
          rw [List.filterMap_cons]
          cases m.signed? <;> rfl

namespace Replica

def Call.messages : Call → List Message
  | .batch messages => messages
  | _ => []

-- The signatures that calls have a replica look at.
def heard (r : Replica) (calls : List Call) : List (Signed ValidatorId) :=
  if r.role.participates then (calls.flatMap Call.messages).filterMap Message.signed? else []

theorem heard_append (r : Replica) (xs ys : List Call) :
    r.heard (xs ++ ys) = r.heard xs ++ r.heard ys := by
  unfold heard
  split
  · rw [List.flatMap_append, List.filterMap_append]
  · rfl

theorem heard_batch {r : Replica} (h : r.role.participates = true) (messages : List Message) :
    r.heard [.batch messages] = messages.filterMap Message.signed? := by
  simp [heard, h, Call.messages]

theorem answer_keyChain {r : Replica} (hproper : r.tally.Proper) (c : Call) :
    (r.answer c).2.keyChain = (r.heard [c]).foldl .next r.keyChain := by
  cases c with
  | startRun view => simp [answer, startRun, heard, Call.messages]
  | takeDelivered => simp [answer, takeDelivered, heard, Call.messages]
  | propose b =>
      obtain ⟨signer, hnext⟩ := r.propose_snd b
      simp [hnext, heard, Call.messages]
  | batch messages =>
      rw [answer_batch hproper]
      cases hrole : r.role.participates with
      | false => simp [heard, hrole]
      | true =>
          rw [heard_batch hrole, ← KeyChain.follow_eq_foldl]
          exact outcome_keyChain hproper messages

theorem after_keyChain (seat : Seat) (v : ValidatorId) (calls : List Call) :
    ((seat.replica v).after calls).keyChain = KeyChain.after ((seat.replica v).heard calls) := by
  induction calls using List.reverseRecOn with
  | nil => simp [after, heard, Seat.replica, create, KeyChain.after]
  | append_singleton calls c ih =>
      obtain ⟨hstores, hseat⟩ := stores_after seat v calls
      have hlast : (seat.replica v).after (calls ++ [c]) =
          (((seat.replica v).after calls).answer c).2 := List.foldl_append
      have hheard : ((seat.replica v).after calls).heard [c] = (seat.replica v).heard [c] := by
        simp only [heard, hseat.role]
      rw [hlast, answer_keyChain hstores.proper, hheard, ih, heard_append, KeyChain.after_append]

-- The state in which the next message of a batch is read, after those before it.
def reading (r : Replica) (before : List Message) : Replica :=
  if r.isDelivered then r.onMessages before else r.processBatch before

theorem reading_append_singleton (r : Replica) (before : List Message) (m : Message) :
    r.reading (before ++ [m]) = ((r.reading before).onMessage m).2 := by
  unfold reading processBatch onMessages
  split <;> exact List.foldl_append

-- A batch is read to its end before anything follows from it.
theorem outcome_eq_reading (r : Replica) (batch : List Message) :
    r.outcome batch =
      if r.isDelivered then ([], r.reading batch) else (r.reading batch).endOfRound := by
  unfold outcome reading
  split <;> rfl

theorem reading_keyChain (r : Replica) (before : List Message) :
    (r.reading before).keyChain = (before.filterMap Message.signed?).foldl .next r.keyChain := by
  rw [← KeyChain.follow_eq_foldl]
  unfold reading processBatch
  split
  · exact r.onMessages_keyChain before
  · exact onMessages_keyChain _ before

theorem onMessage_of_refused {r : Replica} {m : Message} {s : Signed ValidatorId}
    (hm : m.signed? = some s) (h : (r.keyChain.outcome s).isAccepted = false) :
    r.onMessage m = (false, r.following m) := by
  refine onMessage_of_not_accepts fun t ht => ?_
  simp only [Message.signed?, ht.sealedBy, Option.map_some, Option.some.injEq] at hm
  subst hm
  simp [KeyChain.outcome_eq_check, ht.accepted] at h

end Replica

namespace Journal

theorem walletKeys_of_reachable {rule : Journal → Pool.Call → Prop} {limits : PoolLimits}
    {wallets : List WalletId} {j : Journal}
    (h : Reachable rule (start (Pool.create limits wallets)) j) :
    j.pool.walletKeys = KeyChain.after j.heard := by
  induction h with
  | start => rfl
  | @call j c before allowed ih =>
      cases c with
      | fund coins => exact ih
      | apply b => exact ih
      | build height parent =>
          obtain ⟨taken, left, -, hnext, -⟩ := j.pool.buildBlock_cases height parent
          simp only [Journal.call, hnext]
          exact ih
      | submit t =>
          rcases j.pool.submit_cases t with ⟨e, hnext⟩ | ⟨-, -, hnext⟩ <;>
            simp only [Journal.call, hnext, KeyChain.after_append, ih]

end Journal

namespace KeyChain

open Signed

-- A key is recorded whether or not the signature that disclosed it was accepted, so the names that
-- are known belong to whoever disclosed a key in them last.
theorem disclosed_before_accepted :
    (∀ {ι : Type} [DecidableEq ι] (history : List (Signed ι)) (s : Signed ι),
      (∀ key, (after history).outcome s = .checked key .valid →
        ∃ past, latest? s.signer history = some past ∧ past.nextKey = some key) ∧
      (s.Foreign history → ((after history).outcome s).isAccepted = false)) ∧
    (∀ (seat : Seat) (v : ValidatorId) (calls : List Replica.Call) (before : List Message)
      (m : Message) (s : Signed ValidatorId), m.signed? = some s →
      s.Foreign ((seat.replica v).heard (calls ++ [.batch before])) →
      (((seat.replica v).after calls).reading before).onMessage m =
        (false, (((seat.replica v).after calls).reading before).following m)) ∧
    ∀ (limits : PoolLimits) (wallets : List WalletId) (j : Journal) (t : Transaction)
      (s : Signed WalletId),
      Journal.Reachable (fun _ _ => True) (.start (Pool.create limits wallets)) j →
      t.signed? = some s → s.Foreign j.heard →
      (∃ e, (j.pool.submit t).1 = .error e) ∧ (j.pool.submit t).2.pending = j.pool.pending := by
  refine ⟨?_, ?_, ?_⟩
  · intro ι _ history s
    exact ⟨fun key h => (exists_latest_of_checked h).1, isAccepted_outcome_of_foreign⟩
  · intro seat v calls before m s hm hs
    apply Replica.onMessage_of_refused hm
    have hrole : (seat.replica v).role.participates = true := by
      by_contra hrole
      have hnone : (seat.replica v).heard (calls ++ [.batch before]) = [] := if_neg hrole
      exact hs.known (by rw [hnone]; rfl)
    rw [Replica.reading_keyChain, Replica.after_keyChain, ← Replica.heard_batch hrole,
      ← after_append, ← Replica.heard_append]
    exact isAccepted_outcome_of_foreign hs
  · intro limits wallets j t s hj ht hs
    have hrefused := isAccepted_outcome_of_foreign hs
    rw [← Journal.walletKeys_of_reachable hj] at hrefused
    rcases j.pool.submit_cases t with ⟨e, hnext⟩ | ⟨⟨s', -, ht', haccepted⟩, -, -⟩
    · rw [hnext]
      exact ⟨⟨e, rfl⟩, rfl⟩
    · cases Option.some.inj (ht.symm.trans ht')
      rw [hrefused] at haccepted
      cases haccepted

-- Sealed by validator 1 with secrets of zero; the next key is lost.
def lastMessage : Message :=
  ⟨.send, ⟨⟨.zero, none⟩, ⟨1⟩, [], some ⟨⟨1⟩, blankSignature, some lostKey⟩, []⟩, ⟨1⟩, Round.send⟩

def lastSeal : Signed ValidatorId :=
  ⟨⟨1⟩, (Block.signingDigest lastMessage.blockId ⟨1⟩ (some lostKey)).toList, blankSignature,
    some lostKey⟩

-- Signed by wallet 0 with secrets of zero; the next key is lost.
def lastTransaction : Transaction :=
  ⟨⟨7⟩, ⟨0⟩, [], [], some lostKey, some blankSignature⟩

def lastSignature : Signed WalletId :=
  ⟨⟨0⟩, lastTransaction.signingDigest.toList, blankSignature, some lostKey⟩

theorem foreign_lost {ι : Type} [DecidableEq ι] {s : Signed ι} (hkey : s.nextKey = some lostKey)
    (hblank : s.signature = blankSignature) : s.Foreign [s] :=
  foreign_of_lostKey (by simp [inName]) (by simp [inName, hkey]) hblank

-- Who loses its key is not heard again, neither for votes nor for transactions.
theorem disclosed_before_accepted_lost :
    (∃ past, latest? (⟨1⟩ : ValidatorId) (intruding ⟨1⟩) = some past ∧
        past.nextKey = some KeyPair.blank.publicKey) ∧
      ((after [lastSeal]).outcome lastSeal).isAccepted = false ∧
      (((((⟨.regular, {}, [], .steady .blank⟩ : Seat).replica ⟨2⟩).after []).reading
        [lastMessage]).onMessage lastMessage).1 = false ∧
      ∃ e, (((Journal.start (Pool.create {} [⟨0⟩])).call (.submit lastTransaction)).pool.submit
        lastTransaction).1 = .error e := by
  obtain ⟨hchain, hvotes, htransactions⟩ := disclosed_before_accepted
  have hmessage : lastMessage.signed? = some lastSeal := rfl
  have htransaction : lastTransaction.signed? = some lastSignature := rfl
  refine ⟨(hchain _ _).1 _ (outcome_intruding ⟨1⟩), (hchain _ _).2 (foreign_lost rfl rfl), ?_, ?_⟩
  · have hheard : ((⟨.regular, {}, [], .steady .blank⟩ : Seat).replica ⟨2⟩).heard
        ([] ++ [.batch [lastMessage]]) = [lastSeal] := by
      rw [List.nil_append, Replica.heard_batch rfl, List.filterMap_cons_some hmessage]
      rfl
    rw [hvotes _ _ [] [lastMessage] lastMessage lastSeal hmessage
      (hheard ▸ foreign_lost rfl rfl)]
  · have hheard : ((Journal.start (Pool.create {} [⟨0⟩])).call (.submit lastTransaction)).heard =
        [lastSignature] := rfl
    exact (htransactions {} [⟨0⟩] _ lastTransaction lastSignature (.call .start trivial)
      htransaction (hheard ▸ foreign_lost rfl rfl)).1

end KeyChain

namespace Replica

open KeyChain (lastMessage lastSeal lostKey)

-- The key chain is made of the seals that arrive, in their order, and of nothing else: neither the
-- seat nor the ledgers, runs and batches in between leave a trace in it, nor whether a message
-- counted or came after a delivery.
theorem keyChain_of_received {seat : Seat} (hrole : seat.role.participates = true) (v : ValidatorId)
    (calls : List Call) :
    let received := (calls.flatMap Call.messages).filterMap Message.signed?
    ((seat.replica v).after calls).keyChain =
        received.foldl
          (fun c s => (c.checkAndAdvance s.signer s.message s.signature s.nextKey).2) ∅ ∧
      ∀ (seat' : Seat) (v' : ValidatorId) (calls' : List Call), seat'.role.participates = true →
        (calls'.flatMap Call.messages).filterMap Message.signed? = received →
        ((seat'.replica v').after calls').keyChain = ((seat.replica v).after calls).keyChain := by
  intro received
  have hfold : ∀ (seat : Seat) (v : ValidatorId) (calls : List Call),
      seat.role.participates = true → ((seat.replica v).after calls).keyChain =
        KeyChain.after ((calls.flatMap Call.messages).filterMap Message.signed?) := by
    intro seat v calls hrole
    have hheard : (seat.replica v).heard calls =
        (calls.flatMap Call.messages).filterMap Message.signed? := if_pos hrole
    rw [after_keyChain, hheard]
  refine ⟨hfold seat v calls hrole, fun seat' v' calls' hrole' hsame => ?_⟩
  rw [hfold seat' v' calls' hrole', hsame, hfold seat v calls hrole]

-- A message without a seal to look at.
def unsealedMessage : Message :=
  { lastMessage with block := { lastMessage.block with sealedBy := none } }

-- The same messages before and within a run, with other calls in between, and all at once.
def scattered : List Call :=
  [.batch [lastMessage], .startRun ⟨∅, []⟩, .propose lastMessage.block, .takeDelivered,
    .batch [unsealedMessage, lastMessage]]

def gathered : List Call :=
  [.batch [lastMessage, unsealedMessage, lastMessage]]

theorem keyChain_of_received_scattered :
    let one := (⟨.regular, {}, [], .steady .blank⟩ : Seat)
    let other := (⟨.proposer, ⟨0, 7⟩, [⟨2⟩], .steady .blank⟩ : Seat)
    one.role.participates = true ∧ other.role.participates = true ∧
      ((one.replica ⟨2⟩).after scattered).keyChain.expectedKey ⟨1⟩ = some lostKey ∧
      ((other.replica ⟨3⟩).after gathered).keyChain =
        ((one.replica ⟨2⟩).after scattered).keyChain := by
  intro one other
  have hrole : one.role.participates = true := rfl
  obtain ⟨hfold, hsame⟩ := keyChain_of_received hrole ⟨2⟩ scattered
  refine ⟨hrole, rfl, ?_, hsame other ⟨3⟩ gathered rfl rfl⟩
  have hlast : Signed.latest? ⟨1⟩ [lastSeal, lastSeal] = some lastSeal := rfl
  have hrecorded := KeyChain.get?_after [lastSeal, lastSeal] (⟨1⟩ : ValidatorId)
  rw [KeyChain.expectedKey, hfold]
  change ((KeyChain.after [lastSeal, lastSeal]).recorded.get? ⟨1⟩).join = _
  rw [hrecorded, hlast]
  rfl

end Replica

end QuorumLedger
