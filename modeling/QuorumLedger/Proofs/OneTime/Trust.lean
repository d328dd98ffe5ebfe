import Mathlib.Data.List.Induction
import QuorumLedger.Ledger.Id
import QuorumLedger.Proofs.OneTime.Signing

namespace QuorumLedger

-- What one check of a key chain looks at.
structure Signed (ι : Type) where
  signer : ι
  message : Bytes
  signature : Signature
  nextKey : Option PublicKey

namespace KeyChain

variable {ι : Type} [DecidableEq ι]

-- The outcome of one check.
def outcome (c : KeyChain ι) (s : Signed ι) : ChainCheck :=
  (c.checkAndAdvance s.signer s.message s.signature s.nextKey).1

theorem outcome_eq_check (c : KeyChain ι) (s : Signed ι) :
    c.outcome s = c.check s.signer s.message s.signature :=
  rfl

def next (c : KeyChain ι) (s : Signed ι) : KeyChain ι :=
  (c.checkAndAdvance s.signer s.message s.signature s.nextKey).2

-- The chain after a history of checks.
def after (history : List (Signed ι)) : KeyChain ι :=
  history.foldl next ∅

theorem after_append (xs ys : List (Signed ι)) : after (xs ++ ys) = ys.foldl next (after xs) :=
  List.foldl_append

end KeyChain

namespace Signed

variable {ι : Type} [DecidableEq ι]

-- What was signed in one name.
def inName (i : ι) (history : List (Signed ι)) : List (Signed ι) :=
  history.filter fun s => s.signer = i

def latest? (i : ι) (history : List (Signed ι)) : Option (Signed ι) :=
  (inName i history).getLast?

theorem latest?_append_singleton (i : ι) (history : List (Signed ι)) (s : Signed ι) :
    latest? i (history ++ [s]) = if s.signer = i then some s else latest? i history := by
  by_cases h : s.signer = i <;> simp [latest?, inName, h]

theorem mem_of_latest? {i : ι} {history : List (Signed ι)} {s : Signed ι}
    (h : latest? i history = some s) : s ∈ inName i history :=
  List.mem_of_getLast? h

-- Somebody spoke in the name before, and it fits no key disclosed there.
structure Foreign (s : Signed ι) (history : List (Signed ι)) : Prop where
  known : inName s.signer history ≠ []
  unfit : ∀ past ∈ inName s.signer history, ∀ key, past.nextKey = some key →
    key.verify s.message s.signature = .invalid

end Signed

namespace KeyChain

open Signed

variable {ι : Type} [DecidableEq ι]

theorem get?_after (history : List (Signed ι)) (i : ι) :
    (after history).recorded.get? i = (latest? i history).map (·.nextKey) := by
  induction history using List.reverseRecOn with
  | nil => rfl
  | append_singleton history s ih =>
      rw [after_append, latest?_append_singleton]
      simp only [List.foldl_cons, List.foldl_nil, next, checkAndAdvance, advance, Table.get?_set, ih]
      split <;> rfl

theorem outcome_after (history : List (Signed ι)) (s : Signed ι) :
    (after history).outcome s =
      match latest? s.signer history with
      | none => .firstContact
      | some past =>
        match past.nextKey with
        | none => .exhausted
        | some key => .checked key (key.verify s.message s.signature) := by
  unfold outcome checkAndAdvance check
  rw [get?_after]
  cases latest? s.signer history with
  | none => rfl
  | some past => cases hkey : past.nextKey <;> simp [hkey]

-- The key of a check is the one disclosed last in the name, whatever came of that disclosure.
theorem exists_latest_of_checked {history : List (Signed ι)} {s : Signed ι} {key : PublicKey}
    {verification : Verification} (h : (after history).outcome s = .checked key verification) :
    (∃ past, latest? s.signer history = some past ∧ past.nextKey = some key) ∧
      key.verify s.message s.signature = verification := by
  rw [outcome_after] at h
  cases hlast : latest? s.signer history with
  | none => simp [hlast] at h
  | some past =>
      cases hkey : past.nextKey with
      | none => simp [hlast, hkey] at h
      | some key' =>
          simp only [hlast, hkey, ChainCheck.checked.injEq] at h
          obtain ⟨rfl, hverify⟩ := h
          exact ⟨⟨past, rfl, hkey⟩, hverify⟩

theorem inName_eq_nil_of_firstContact {history : List (Signed ι)} {s : Signed ι}
    (h : (after history).outcome s = .firstContact) : inName s.signer history = [] := by
  rw [outcome_after] at h
  cases hlast : latest? s.signer history with
  | none => exact List.getLast?_eq_none_iff.mp hlast
  | some past => cases hkey : past.nextKey <;> simp [hlast, hkey] at h

theorem isAccepted_outcome_of_foreign {history : List (Signed ι)} {s : Signed ι}
    (h : s.Foreign history) : ((after history).outcome s).isAccepted = false := by
  cases hout : (after history).outcome s with
  | firstContact => exact absurd (inName_eq_nil_of_firstContact hout) h.known
  | exhausted => rfl
  | checked key verification =>
      obtain ⟨⟨past, hlast, hkey⟩, hverify⟩ := exists_latest_of_checked hout
      rw [h.unfit past (mem_of_latest? hlast) key hkey] at hverify
      rw [← hverify]
      rfl

-- The part of a history that is accepted as it is checked one by one.
def acceptedFrom (c : KeyChain ι) : List (Signed ι) → List (Signed ι)
  | [] => []
  | s :: rest =>
    if (c.outcome s).isAccepted then s :: acceptedFrom (c.next s) rest
    else acceptedFrom (c.next s) rest

-- A key that no known secret fits, and a signature that only reveals secrets of zero.
def lostKey : PublicKey :=
  ⟨.replicate keyBits .zero, .replicate keyBits .zero⟩

def blankSignature : Signature :=
  ⟨.replicate keyBits .zero⟩

theorem digest_zero_ne : Digest.of Bytes32.zero.toList ≠ Bytes32.zero := by
  decide +kernel

theorem verify_lostKey (message : Bytes) : lostKey.verify message blankSignature = .invalid := by
  have hcomponent : ∀ bit hi, lostKey.component bit ⟨0, hi⟩ = Bytes32.zero := by
    intro bit hi
    cases bit <;> rfl
  cases hverify : lostKey.verify message blankSignature with
  | invalid => rfl
  | valid =>
      have hfirst := PublicKey.verify_eq_valid_iff.mp hverify 0 (by decide)
      rw [hcomponent] at hfirst
      exact absurd hfirst digest_zero_ne

theorem foreign_of_lostKey {s : Signed ι} {history : List (Signed ι)}
    (hknown : inName s.signer history ≠ [])
    (hlost : ∀ past ∈ inName s.signer history, past.nextKey = some lostKey)
    (hblank : s.signature = blankSignature) : s.Foreign history := by
  refine ⟨hknown, fun past hpast key hkey => ?_⟩
  cases Option.some.inj ((hlost past hpast).symm.trans hkey)
  rw [hblank]
  exact verify_lostKey s.message

theorem lostKey_ne_blank : lostKey ≠ KeyPair.blank.publicKey := by
  intro h
  have hzeros := congrArg (fun k => k.zeros[0]) h
  simp only [lostKey, KeyPair.blank, KeyPair.ofPrivateKey, PrivateKey.publicKey,
    Vector.getElem_map, Vector.getElem_replicate] at hzeros
  exact digest_zero_ne hzeros.symm

-- A stranger speaks up in a known name. What it signs is refused, but the key that it discloses is
-- recorded, and the next that it signs is accepted.
def intruding (signer : ValidatorId) : List (Signed ValidatorId) :=
  [⟨signer, [], blankSignature, some lostKey⟩,
    ⟨signer, [], blankSignature, some KeyPair.blank.publicKey⟩]

theorem acceptedFrom_intruding (signer : ValidatorId) :
    acceptedFrom ∅ (intruding signer) = [⟨signer, [], blankSignature, some lostKey⟩] := by
  have hfirst : ((∅ : KeyChain ValidatorId).outcome
      ⟨signer, [], blankSignature, some lostKey⟩).isAccepted = true := rfl
  have hsecond : ((after [⟨signer, [], blankSignature, some lostKey⟩]).outcome
      ⟨signer, [], blankSignature, some KeyPair.blank.publicKey⟩).isAccepted = false :=
    isAccepted_outcome_of_foreign
      (foreign_of_lostKey (by simp [inName]) (by simp [inName]) rfl)
  have hnext : (∅ : KeyChain ValidatorId).next ⟨signer, [], blankSignature, some lostKey⟩ =
      after [⟨signer, [], blankSignature, some lostKey⟩] := rfl
  simp only [intruding, acceptedFrom, hfirst, hnext, hsecond, if_true, if_false,
    Bool.false_eq_true]

theorem outcome_intruding (signer : ValidatorId) :
    (after (intruding signer)).outcome ⟨signer, [], KeyPair.blank.sign [], none⟩ =
      .checked KeyPair.blank.publicKey .valid := by
  have hlast : latest? signer (intruding signer) =
      some ⟨signer, [], blankSignature, some KeyPair.blank.publicKey⟩ := by
    simp [latest?, inName, intruding]
  rw [outcome_after, hlast]
  exact congrArg _ (PrivateKey.verify_sign KeyPair.blank.privateKey [])

theorem not_disclosed_by_accepted :
    ¬ ∀ (history : List (Signed ValidatorId)) (s : Signed ValidatorId) (key : PublicKey),
      (after history).outcome s = .checked key .valid →
        ∃ past ∈ acceptedFrom ∅ history, past.signer = s.signer ∧ past.nextKey = some key := by
  intro h
  obtain ⟨past, hpast, -, hkey⟩ := h _ _ _ (outcome_intruding ⟨1⟩)
  rw [acceptedFrom_intruding, List.mem_singleton] at hpast
  rw [hpast] at hkey
  exact lostKey_ne_blank (Option.some.inj hkey)

end KeyChain

end QuorumLedger
