import Mathlib.Data.List.OfFn
import QuorumLedger.Proofs.OneTime.Trust

namespace QuorumLedger

-- The texts that a signer signs one after the other, and its key pairs. The text at each place is
-- signed with the pair at the place and discloses the public half of the next pair.
structure Speech (ι : Type) where
  speaker : ι
  texts : List Bytes
  pairs : Nat → KeyPair

namespace Speech

variable {ι : Type}

abbrev Place (p : Speech ι) := Fin p.texts.length

def line (p : Speech ι) (i : p.Place) : Signed ι :=
  ⟨p.speaker, p.texts[i], (p.pairs i).sign p.texts[i], some (p.pairs (i + 1)).publicKey⟩

-- No message fits a key of the speech but its own.
def Separate (p : Speech ι) : Prop :=
  ∀ (a : p.Place) (b : Nat), b ≤ p.texts.length → b ≠ a →
    (p.pairs b).publicKey.verify p.texts[a] (p.line a).signature ≠ .valid

-- One message reaches a receiver: one of the speech, or one in another name.
inductive Delivery (p : Speech ι) where
  | own (i : p.Place)
  | other (s : Signed ι) (signer_ne : s.signer ≠ p.speaker)

namespace Delivery

variable {p : Speech ι}

def signed : p.Delivery → Signed ι
  | own i => p.line i
  | other s _ => s

def place? : p.Delivery → Option p.Place
  | own i => some i
  | other _ _ => none

end Delivery

-- The places of the speech that were delivered, in the order of their delivery.
def places {p : Speech ι} (deliveries : List p.Delivery) : List p.Place :=
  deliveries.filterMap Delivery.place?

-- A speech with one more message before all others.
def cons (pair : KeyPair) (text : Bytes) (p : Speech ι) : Speech ι where
  speaker := p.speaker
  texts := text :: p.texts
  pairs
    | 0 => pair
    | n + 1 => p.pairs n

theorem ofFn_line_cons (pair : KeyPair) (text : Bytes) (p : Speech ι) :
    List.ofFn (cons pair text p).line =
      ⟨p.speaker, text, pair.sign text, some (p.pairs 0).publicKey⟩ :: List.ofFn p.line :=
  List.ofFn_succ

theorem verify_line (p : Speech ι) (i : p.Place) :
    (p.pairs i).publicKey.verify p.texts[i] (p.line i).signature = .valid := by
  rw [(p.pairs i).publicKey_eq]
  exact PrivateKey.verify_sign (p.pairs i).privateKey p.texts[i]

theorem Separate.verify_eq_valid_iff {p : Speech ι} (h : p.Separate) (i : p.Place) {b : Nat}
    (hb : b ≤ p.texts.length) :
    (p.pairs b).publicKey.verify p.texts[i] (p.line i).signature = .valid ↔ b = i := by
  refine ⟨fun hvalid => ?_, fun hbi => ?_⟩
  · by_contra hbi
    exact h i b hb hbi hvalid
  · rw [hbi]
    exact verify_line p i

end Speech

namespace Signer

variable {ι : Type}

-- What a signer manages to sign of some texts. Where no next key can be generated, nothing is
-- signed, and the key at hand is kept for the next text.
def spoken (name : ι) (s : Signer) : List Bytes → List (Signed ι)
  | [] => []
  | text :: rest =>
    match s.rotate with
    | (.ok (key, nextKey), s) => ⟨name, text, key.sign text, some nextKey⟩ :: spoken name s rest
    | (.error _, s) => spoken name s rest

theorem exists_speech (name : ι) (s : Signer) (texts : List Bytes) :
    ∃ p : Speech ι, p.speaker = name ∧ p.pairs 0 = s.next ∧
      s.spoken name texts = List.ofFn p.line := by
  induction texts generalizing s with
  | nil => exact ⟨⟨name, [], fun _ => s.next⟩, rfl, rfl, rfl⟩
  | cons text rest ih =>
      cases hsource : s.source s.attempts with
      | error e =>
          obtain ⟨p, hname, hnext, hrest⟩ := ih { s with attempts := s.attempts + 1 }
          refine ⟨p, hname, hnext, ?_⟩
          simp only [spoken, rotate, hsource]
          exact hrest
      | ok fresh =>
          obtain ⟨p, rfl, hnext, hrest⟩ := ih ⟨fresh, s.source, s.attempts + 1⟩
          refine ⟨.cons s.next text p, rfl, rfl, ?_⟩
          rw [Speech.ofFn_line_cons, hnext, ← hrest]
          simp only [spoken, rotate, hsource]
          rfl

end Signer

namespace Speech

open Signed KeyChain

variable {ι : Type} [DecidableEq ι]

-- What was said last in the speaker's name is the message delivered last, whether or not it was
-- accepted.
theorem latest?_signed {p : Speech ι} (deliveries : List p.Delivery) :
    latest? p.speaker (deliveries.map Delivery.signed) =
      (places deliveries).getLast?.map p.line := by
  induction deliveries using List.reverseRecOn with
  | nil => rfl
  | append_singleton before d ih =>
      rw [List.map_append, List.map_singleton, latest?_append_singleton, ih]
      cases d with
      | own i => simp [places, Delivery.signed, Delivery.place?, line]
      | other s hs => simp [places, Delivery.signed, Delivery.place?, hs]

-- Whatever is lost, repeated or reordered, a message is accepted if it is the first that arrives or
-- directly follows the last one that did.
theorem isAccepted_outcome_iff {p : Speech ι} (h : p.Separate) (before : List p.Delivery)
    (i : p.Place) :
    ((after (before.map Delivery.signed)).outcome (p.line i)).isAccepted = true ↔
      places before = [] ∨ ∃ k, (places before).getLast? = some k ∧ i.val = k.val + 1 := by
  have hlast : latest? (p.line i).signer (before.map Delivery.signed) =
      (places before).getLast?.map p.line := latest?_signed before
  rw [outcome_after, hlast]
  cases hplaces : (places before).getLast? with
  | none => simp [List.getLast?_eq_none_iff.mp hplaces, ChainCheck.isAccepted]
  | some k =>
      have hnil : places before ≠ [] := by
        rintro hnil
        simp [hnil] at hplaces
      have hvalid : (p.pairs (k + 1)).publicKey.verify p.texts[i] (p.line i).signature = .valid ↔
          k.val + 1 = i := h.verify_eq_valid_iff i k.isLt
      simp only [hnil, false_or, Option.some.injEq, exists_eq_left', eq_comm (a := i.val), ← hvalid]
      exact Verification.isValid_iff

-- All secrets of a pair are one byte over and over.
def uniform (b : UInt8) : KeyPair :=
  .ofPrivateKey ⟨.replicate keyBits (secret b), .replicate keyBits (secret b)⟩
where
  secret (b : UInt8) : Bytes32 := ⟨⟨Array.replicate 32 b⟩, by simp [ByteArray.size]⟩

theorem digest_secret_ne :
    ∀ a b : Fin 5, b ≠ a → Digest.of (uniform.secret (UInt8.ofNat a)).toList ≠
      Digest.of (uniform.secret (UInt8.ofNat b)).toList := by
  decide +kernel

theorem verify_uniform_ne {a b : UInt8}
    (h : Digest.of (uniform.secret a).toList ≠ Digest.of (uniform.secret b).toList)
    (text : Bytes) : (uniform b).publicKey.verify text ((uniform a).sign text) ≠ .valid := by
  have hpreimage : ((uniform a).sign text).preimages[0] = uniform.secret a := by
    simp [KeyPair.sign, uniform, KeyPair.ofPrivateKey, PrivateKey.sign]
  have hcomponent : ∀ bit hi, (uniform b).publicKey.component bit ⟨0, hi⟩ =
      Digest.of (uniform.secret b).toList := by
    intro bit hi
    cases bit <;>
      simp [uniform, KeyPair.ofPrivateKey, PrivateKey.publicKey, PublicKey.component]
  intro hvalid
  have hfirst := PublicKey.verify_eq_valid_iff.mp hvalid 0 (by decide)
  rw [hcomponent, hpreimage] at hfirst
  exact h hfirst

def counting : Speech ValidatorId where
  speaker := ⟨1⟩
  texts := [[1], [2], [3], [4]]
  pairs n := uniform (UInt8.ofNat n)

def place (i : Fin 4) : counting.Place :=
  i

theorem counting_separate : counting.Separate := by
  intro a b hb hba
  exact verify_uniform_ne
    (digest_secret_ne ⟨a, Nat.lt_succ_of_lt a.isLt⟩ ⟨b, Nat.lt_succ_of_le hb⟩
      fun h => hba (congrArg Fin.val h)) counting.texts[a]

-- The first message comes twice, the second is lost, the third is refused, and the fourth is next.
def scrambled : List counting.Delivery :=
  [.own (place 0), .other ⟨⟨2⟩, [], blankSignature, none⟩ (by decide), .own (place 0),
    .own (place 2)]

theorem isAccepted_outcome_scrambled :
    counting.Separate ∧
      ((after ((scrambled.take 3).map Delivery.signed)).outcome
        (counting.line (place 2))).isAccepted = false ∧
      ((after (scrambled.map Delivery.signed)).outcome
        (counting.line (place 3))).isAccepted = true := by
  refine ⟨counting_separate, ?_, ?_⟩
  · rw [← Bool.not_eq_true, isAccepted_outcome_iff counting_separate]
    rintro (hnil | ⟨k, hk, hlast⟩)
    · exact absurd hnil (by decide)
    · obtain rfl : k = place 0 := (Option.some.inj hk).symm
      exact absurd hlast (by decide)
  · exact (isAccepted_outcome_iff counting_separate scrambled (place 3)).mpr
      (.inr ⟨place 2, rfl, rfl⟩)

end Speech

end QuorumLedger
