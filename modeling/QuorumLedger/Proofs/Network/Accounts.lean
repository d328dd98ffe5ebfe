import Mathlib.Algebra.BigOperators.Group.List.Basic
import Mathlib.Algebra.GroupWithZero.Nat
import QuorumLedger.Proofs.Cluster.Carrying
import QuorumLedger.Proofs.Random.Draws

namespace QuorumLedger

namespace Message

-- On the wire a message goes out behind its size in four bytes. One that is too long for that
-- cannot be read again, and its send ends with an error at the first copy.
def Fits (c : NetworkConfig) (m : Message) : Prop :=
  c.wire = true → m.payload.length < Nat.pow 2 32

def received (c : NetworkConfig) (m : Message) : Message :=
  if c.wire then m.withoutVotes else m

end Message

namespace Network

theorem carry_of_fits {c : NetworkConfig} {m : Message} (h : m.Fits c) :
    carry c m = .ok (m.received c) := by
  unfold carry Message.received
  split
  · rename_i hwire
    exact (Message.decode_self_delimiting (h hwire)).2.2.2
  · rfl

theorem eq_received_of_carry {c : NetworkConfig} {m m' : Message} (h : carry c m = .ok m') :
    m' = m.received c := by
  unfold carry at h
  unfold Message.received
  split at h
  · rename_i hwire
    rw [if_pos hwire, Message.eq_of_decode_encode h]
  · rename_i hwire
    rw [if_neg hwire]
    exact (Except.ok.inj h).symm

theorem carry_of_unfit {c : NetworkConfig} {m : Message} (h : ¬m.Fits c) :
    carry c m = .error .decompress := by
  obtain ⟨hwire, hlong⟩ := Classical.not_imp.mp h
  have hsize := Wire.Compressed.four_le_length_literal m.payload
  rw [carry, if_pos hwire, Message.decode, Message.encode, if_neg (Nat.not_lt.mpr hsize),
    Wire.Compressed.expand?_literal_eq_none (Nat.le_of_not_lt hlong)]

inductive Call where
  | partition (a b : List ValidatorId)
  | isolate (v : ValidatorId)
  | heal
  | broadcast (source : ValidatorId) (m : Message)
  | sendToLeader (source : ValidatorId) (m : Message)

-- Whether a call cuts the link between two validators.
def Call.Cuts (members : List ValidatorId) (x y : ValidatorId) : Call → Prop
  | .partition a b => x ∈ a ∧ y ∈ b ∨ y ∈ a ∧ x ∈ b
  | .isolate v => x = v ∧ y ∈ members ∨ y = v ∧ x ∈ members
  | _ => False

-- Whether a call cut the link between two validators and none has repaired it since.
def Severed (members : List ValidatorId) (calls : List Call) (x y : ValidatorId) : Prop :=
  ∃ front c back, calls = front ++ c :: back ∧ c.Cuts members x y ∧ Call.heal ∉ back

-- A message for one target, with the calls before it was sent.
structure Errand where
  earlier : List Call
  source : ValidatorId
  target : ValidatorId
  message : Message

def Call.errands (members : List ValidatorId) (leader : ValidatorId) (earlier : List Call) :
    Call → List Errand
  | .broadcast source m => members.map fun target => ⟨earlier, source, target, m⟩
  | .sendToLeader source m => [⟨earlier, source, leader, m⟩]
  | _ => []

def errands (members : List ValidatorId) (leader : ValidatorId) (earlier : List Call) :
    List Call → List Errand
  | [] => []
  | c :: rest =>
    c.errands members leader earlier ++ errands members leader (earlier ++ [c]) rest

-- Whether so many copies may arrive at a target that is apart from the sender or not.
structure MayArrive (c : NetworkConfig) (fits apart : Prop) (copies : Nat) : Prop where
  few : copies ≤ 2
  passed : 0 < copies → ¬apart
  arrives : ¬0 < c.loss → fits → ¬apart → 0 < copies
  single : ¬0 < c.duplicates → copies ≤ 1

-- An errand with the number of copies that it put into the inbox of its target.
structure Passage extends Errand where
  copies : Nat

-- What it put into the inbox of a validator.
def Passage.arrivals (c : NetworkConfig) (v : ValidatorId) (p : Passage) : List Message :=
  if p.target = v then List.replicate p.copies (p.message.received c) else []

def total (passages : List Passage) : Nat :=
  (passages.map (·.copies)).sum

@[simp]
theorem total_append (ps qs : List Passage) : total (ps ++ qs) = total ps + total qs := by
  simp [total]

theorem MayArrive.congr {c : NetworkConfig} {fits apart apart' : Prop} {copies : Nat}
    (h : MayArrive c fits apart copies) (hiff : apart ↔ apart') :
    MayArrive c fits apart' copies :=
  ⟨h.few, fun hpos => hiff.not.mp (h.passed hpos),
    fun hloss hfits hpass => h.arrives hloss hfits (hiff.not.mpr hpass), h.single⟩

theorem errands_append_singleton (members : List ValidatorId) (leader : ValidatorId)
    (earlier calls : List Call) (c : Call) :
    errands members leader earlier (calls ++ [c]) =
      errands members leader earlier calls ++ c.errands members leader (earlier ++ calls) := by
  induction calls generalizing earlier with
  | nil => simp [errands]
  | cons c' rest ih => simp [errands, ih]

theorem severed_append_singleton {members : List ValidatorId} {calls : List Call} {c : Call}
    {x y : ValidatorId} : Severed members (calls ++ [c]) x y ↔
      c.Cuts members x y ∨ c ≠ .heal ∧ Severed members calls x y := by
  constructor
  · rintro ⟨front, c', back, hcalls, hcuts, hheal⟩
    rcases List.eq_nil_or_concat back with rfl | ⟨back, last, rfl⟩
    · obtain ⟨-, hc⟩ := List.append_inj' hcalls rfl
      exact .inl (List.singleton_inj.mp hc ▸ hcuts)
    · have hsplit : calls ++ [c] = (front ++ c' :: back) ++ [last] := by simpa using hcalls
      obtain ⟨hfront, hlast⟩ := List.append_inj' hsplit rfl
      simp only [List.concat_eq_append, List.mem_append, List.mem_singleton, not_or] at hheal
      refine .inr ⟨fun h => hheal.2 ?_, front, c', back, hfront, hcuts, hheal.1⟩
      rw [← h, List.singleton_inj.mp hlast]
  · rintro (hcuts | ⟨hkeeps, front, c', back, rfl, hcuts, hheal⟩)
    · exact ⟨calls, c, [], rfl, hcuts, List.not_mem_nil⟩
    · refine ⟨front, c', back ++ [c], by simp, hcuts, fun h => ?_⟩
      rcases List.mem_append.mp h with h | h
      · exact hheal h
      · exact hkeeps (List.mem_singleton.mp h).symm

theorem link_comm (x y : ValidatorId) : link x y = link y x := by
  unfold link
  split <;> split <;> rename_i hxy hyx
  · have hsame : x = y := congrArg ValidatorId.mk (UInt64.le_antisymm hxy hyx)
    rw [hsame]
  · rfl
  · rfl
  · exact absurd (UInt64.le_total x.value y.value) (by simp [hxy, hyx])

theorem link_eq_link_iff {u w x y : ValidatorId} :
    link u w = link x y ↔ u = x ∧ w = y ∨ u = y ∧ w = x := by
  constructor
  · intro h
    unfold link at h
    split at h <;> split at h <;> cases h <;> simp
  · rintro (⟨rfl, rfl⟩ | ⟨rfl, rfl⟩)
    · rfl
    · exact link_comm u w

variable {σ : Type}

theorem isCut_eq_true_iff {n : Network σ} {x y : ValidatorId} :
    n.isCut x y = true ↔ x ≠ y ∧ link x y ∈ n.cut := by
  simp [isCut]

theorem isCut_partition {n : Network σ} {a b : List ValidatorId} {x y : ValidatorId} :
    (n.partition a b).isCut x y = true ↔
      x ≠ y ∧ (x ∈ a ∧ y ∈ b ∨ y ∈ a ∧ x ∈ b) ∨ n.isCut x y = true := by
  have hpairs : link x y ∈ (n.partition a b).cut ↔
      (∃ u ∈ a, ∃ w ∈ b, u ≠ w ∧ link u w = link x y) ∨ link x y ∈ n.cut := by
    simp [partition, and_assoc]
  rw [isCut_eq_true_iff, isCut_eq_true_iff, hpairs]
  constructor
  · rintro ⟨hne, ⟨u, hu, w, hw, -, hlink⟩ | hcut⟩
    · rcases link_eq_link_iff.mp hlink with ⟨rfl, rfl⟩ | ⟨rfl, rfl⟩
      · exact .inl ⟨hne, .inl ⟨hu, hw⟩⟩
      · exact .inl ⟨hne, .inr ⟨hu, hw⟩⟩
    · exact .inr ⟨hne, hcut⟩
  · rintro (⟨hne, ⟨hx, hy⟩ | ⟨hy, hx⟩⟩ | ⟨hne, hcut⟩)
    · exact ⟨hne, .inl ⟨x, hx, y, hy, hne, rfl⟩⟩
    · exact ⟨hne, .inl ⟨y, hy, x, hx, hne.symm, link_comm y x⟩⟩
    · exact ⟨hne, .inr hcut⟩

-- How many messages wait in all inboxes together.
def waiting (n : Network σ) : Nat :=
  (n.inboxes.entries.map fun e => e.2.messages.length).sum

-- Whether the counters agree with the inboxes, nothing having been taken out of them, and with so
-- many targets. The counters are numbers without a bound: with 64 bits they would be the same until
-- one of them passed 2 ^ 64.
structure Balanced (n : Network σ) (targets : Nat) : Prop where
  delivered : n.stats.delivered = n.waiting
  targets : n.stats.delivered + n.stats.dropped = n.stats.duplicated + targets

-- Whether nothing changed but inboxes, counters and the source of random decisions.
structure Kept (n n' : Network σ) : Prop where
  config : n'.config = n.config
  leader : n'.leader = n.leader
  members : n'.members = n.members
  cut : n'.cut = n.cut
  closed : n'.closed = n.closed

-- Whether one network became the other by some errands.
structure Carried (n : Network σ) (passages : List Passage) (n' : Network σ) : Prop where
  kept : n.Kept n'
  copies : ∀ p ∈ passages, MayArrive n.config (p.message.Fits n.config)
    (n.isCut p.source p.target = true) p.copies
  inboxes : ∀ v i, n.inboxes.get? v = some i →
    n'.inboxes.get? v = some ⟨i.messages ++ passages.flatMap (·.arrivals n.config v)⟩
  waiting : n'.waiting = n.waiting + total passages
  balanced : (∀ p ∈ passages, p.message.Fits n.config) → ∀ targets, n.Balanced targets →
    n'.Balanced (targets + passages.length)

-- What is decided for one target, before anything is put into its inbox.
structure Decided (n : Network σ) (source target : ValidatorId) (copies : Nat)
    (n' : Network σ) : Prop where
  kept : n.Kept n'
  inboxes : n'.inboxes = n.inboxes
  arrival : MayArrive n.config True (n.isCut source target = true) copies
  delivered : n'.stats.delivered = n.stats.delivered + copies
  targets : n'.stats.delivered + n'.stats.dropped + n.stats.duplicated =
    n.stats.delivered + n.stats.dropped + n'.stats.duplicated + 1

variable {n n' n'' : Network σ}

theorem Kept.isCut (h : n.Kept n') (x y : ValidatorId) : n'.isCut x y = n.isCut x y := by
  rw [Network.isCut, Network.isCut, h.cut]

theorem Kept.trans (h : n.Kept n') (h' : n'.Kept n'') : n.Kept n'' :=
  ⟨h'.config.trans h.config, h'.leader.trans h.leader, h'.members.trans h.members,
    h'.cut.trans h.cut, h'.closed.trans h.closed⟩

theorem carried_nil (sent : Nat) : n.Carried [] { n with stats := { n.stats with sent } } where
  kept := ⟨rfl, rfl, rfl, rfl, rfl⟩
  copies p hp := absurd hp List.not_mem_nil
  inboxes v i hi := by simpa using hi
  waiting := rfl
  balanced _ _ hn := ⟨hn.delivered, hn.targets⟩

theorem Carried.append {ps qs : List Passage} (h : n.Carried ps n') (h' : n'.Carried qs n'') :
    n.Carried (ps ++ qs) n'' where
  kept := h.kept.trans h'.kept
  copies p hp := by
    rcases List.mem_append.mp hp with hp | hp
    · exact h.copies p hp
    · rw [← h.kept.isCut, ← h.kept.config]
      exact h'.copies p hp
  inboxes v i hi := by
    rw [h'.inboxes v _ (h.inboxes v i hi), h.kept.config, List.flatMap_append, List.append_assoc]
  waiting := by rw [h'.waiting, h.waiting, total_append, Nat.add_assoc]
  balanced hfits targets hn := by
    have hlater := h'.balanced (fun p hp => h.kept.config ▸ hfits p (List.mem_append_right _ hp)) _
      (h.balanced (fun p hp => hfits p (List.mem_append_left _ hp)) targets hn)
    rwa [List.length_append, ← Nat.add_assoc]

section Push

variable {target : ValidatorId} {i : Inbox} (m : Message)

theorem get?_push (h : n.inboxes.get? target = some i) (count : Nat) (v : ValidatorId) :
    (n.push target i m count).inboxes.get? v =
      if target = v then some ⟨i.messages ++ List.replicate count m⟩
      else n.inboxes.get? v := by
  induction count generalizing n i with
  | zero =>
      split
      · rename_i hv
        subst hv
        simpa [push] using h
      · rfl
  | succ count ih =>
      rw [push, ih (by simp)]
      by_cases hv : target = v
      · simp [hv, Inbox.push, List.replicate_succ]
      · simp [hv]

theorem kept_push (h : n.inboxes.get? target = some i) (count : Nat) :
    n.Kept (n.push target i m count) := by
  induction count generalizing n i with
  | zero => exact ⟨rfl, rfl, rfl, rfl, rfl⟩
  | succ count ih =>
      have hset : n.Kept { n with inboxes := n.inboxes.set target (i.push m) } :=
        ⟨rfl, rfl, Table.keys_set_of_get? h _, rfl, rfl⟩
      exact hset.trans (ih (by simp))

theorem stats_push (count : Nat) : (n.push target i m count).stats = n.stats := by
  induction count generalizing n i with
  | zero => rfl
  | succ count ih => exact ih

theorem waiting_push (h : n.inboxes.get? target = some i) (count : Nat) :
    (n.push target i m count).waiting = n.waiting + count := by
  induction count generalizing n i with
  | zero => rfl
  | succ count ih =>
      have hset := Table.sum_set h (i.push m) fun i => i.messages.length
      rw [push, ih (by simp)]
      simp only [waiting, Inbox.push, List.length_append, List.length_singleton] at hset ⊢
      omega

end Push

theorem Decided.carried {e : Errand} {i : Inbox} {copies : Nat}
    (h : n.Decided e.source e.target copies n') (hi : n.inboxes.get? e.target = some i) :
    n.Carried [⟨e, copies⟩] (n'.push e.target i (e.message.received n.config) copies) := by
  have hi' : n'.inboxes.get? e.target = some i := by rw [h.inboxes, hi]
  have hwaiting : (n'.push e.target i (e.message.received n.config) copies).waiting =
      n.waiting + copies := by
    rw [waiting_push _ hi', waiting, h.inboxes, ← waiting]
  constructor
  case kept => exact h.kept.trans (kept_push _ hi' _)
  case copies =>
    intro p hp
    cases List.mem_singleton.mp hp
    exact ⟨h.arrival.few, h.arrival.passed, fun hloss _ => h.arrival.arrives hloss trivial,
      h.arrival.single⟩
  case inboxes =>
    intro v i' hv
    rw [get?_push _ hi', List.flatMap_singleton, Passage.arrivals]
    split
    · rename_i htarget
      subst htarget
      rw [hi] at hv
      cases hv
      rfl
    · rw [h.inboxes, hv, List.append_nil]
  case waiting => simpa [total] using hwaiting
  case balanced =>
    intro _ targets hn
    have hdelivered := h.delivered
    have htargets := h.targets
    have hbefore := hn.delivered
    have hsum := hn.targets
    constructor
    · rw [stats_push, hwaiting]
      omega
    · rw [stats_push, List.length_singleton]
      omega

-- Where errands do not fit, only what the inboxes hold is known.
theorem carried_of_unfit {es : List Errand} (hkept : n.Kept n') (hinboxes : n'.inboxes = n.inboxes)
    (hne : es ≠ []) (hunfit : ∀ e ∈ es, ¬e.message.Fits n.config) :
    n.Carried (es.map (⟨·, 0⟩)) n' := by
  have hzero : ∀ p ∈ es.map (⟨·, 0⟩ : Errand → Passage), p.copies = 0 :=
    List.forall_mem_map.mpr fun _ _ => rfl
  constructor
  case kept => exact hkept
  case copies =>
    refine List.forall_mem_map.mpr fun e he => ⟨Nat.zero_le 2, nofun, ?_, fun _ => Nat.zero_le 1⟩
    exact fun _ hfits => absurd hfits (hunfit e he)
  case inboxes =>
    intro v i hi
    have hnone : (es.map (⟨·, 0⟩ : Errand → Passage)).flatMap (·.arrivals n.config v) = [] :=
      List.flatMap_eq_nil_iff.mpr fun p hp => by simp [Passage.arrivals, hzero p hp]
    rw [hinboxes, hi, hnone, List.append_nil]
  case waiting =>
    have htotal : total (es.map (⟨·, 0⟩)) = 0 :=
      List.sum_eq_zero (List.forall_mem_map.mpr hzero)
    rw [htotal, waiting, hinboxes]
    rfl
  case balanced =>
    obtain ⟨e, he⟩ := List.exists_mem_of_ne_nil es hne
    exact fun hfits => absurd (hfits _ (List.mem_map_of_mem he)) (hunfit e he)

-- Whether a network stands where these calls leave one that was open and healed.
structure Stands (config : NetworkConfig) (members : List ValidatorId) (leader : ValidatorId)
    (calls : List Call) (n : Network σ) : Prop where
  cut : ∀ x y, n.isCut x y = true ↔ x ≠ y ∧ Severed members calls x y
  config : n.config = config
  leader : n.leader = leader
  members : n.members = members
  opened : n.closed = false

-- What a network owes to all that was sent over it.
structure Accounts (config : NetworkConfig) (members : List ValidatorId) (leader : ValidatorId)
    (calls : List Call) (passages : List Passage) (n : Network σ) : Prop where
  -- one passage for each target of each send, in their order
  errands : passages.map (·.toErrand) = errands members leader [] calls
  copies : ∀ p ∈ passages, MayArrive config (p.message.Fits config)
    (p.source ≠ p.target ∧ Severed members p.earlier p.source p.target) p.copies
  inboxes : ∀ v ∈ members,
    n.inboxes.get? v = some ⟨passages.flatMap (·.arrivals config v)⟩
  waiting : n.waiting = total passages
  balanced : (∀ p ∈ passages, p.message.Fits config) → n.Balanced passages.length

variable {config : NetworkConfig} {members : List ValidatorId} {leader : ValidatorId}
  {calls : List Call} {passages later : List Passage} {c : Call}

theorem earlier_of_mem_errands {e : Errand} (h : e ∈ c.errands members leader calls) :
    e.earlier = calls := by
  cases c with
  | broadcast source m =>
      obtain ⟨_, -, rfl⟩ := List.mem_map.mp h
      rfl
  | sendToLeader source m =>
      cases List.mem_singleton.mp h
      rfl
  | partition a b => cases h
  | isolate v => cases h
  | heal => cases h

theorem Stands.kept (h : Stands config members leader calls n) (hkept : n.Kept n')
    (hcuts : ∀ x y, ¬c.Cuts members x y) (hheal : c ≠ .heal) :
    Stands config members leader (calls ++ [c]) n' where
  config := hkept.config.trans h.config
  leader := hkept.leader.trans h.leader
  members := hkept.members.trans h.members
  opened := hkept.closed.trans h.opened
  cut x y := by
    rw [hkept.isCut, h.cut, severed_append_singleton]
    simp [hcuts, hheal]

theorem Stands.partition (h : Stands config members leader calls n) {a b : List ValidatorId}
    (hcuts : ∀ x y, x ≠ y →
      (c.Cuts members x y ↔ x ∈ a ∧ y ∈ b ∨ y ∈ a ∧ x ∈ b)) (hheal : c ≠ .heal) :
    Stands config members leader (calls ++ [c]) (n.partition a b) where
  config := h.config
  leader := h.leader
  members := h.members
  opened := h.opened
  cut x y := by
    rw [isCut_partition, h.cut, severed_append_singleton]
    by_cases hxy : x = y
    · simp [hxy, hheal]
    · simp [hxy, hheal, hcuts x y hxy]

theorem Stands.heal (h : Stands config members leader calls n) :
    Stands config members leader (calls ++ [.heal]) n.heal where
  config := h.config
  leader := h.leader
  members := h.members
  opened := h.opened
  cut x y := by
    rw [isCut_eq_true_iff, severed_append_singleton]
    simp [Network.heal, Call.Cuts]

theorem Accounts.recut (h : Accounts config members leader calls passages n)
    (hquiet : c.errands members leader calls = []) (cut : List (ValidatorId × ValidatorId)) :
    Accounts config members leader (calls ++ [c]) passages { n with cut } where
  errands := by
    rw [errands_append_singleton, List.nil_append, hquiet, List.append_nil]
    exact h.errands
  copies := h.copies
  inboxes := h.inboxes
  waiting := h.waiting
  balanced hfits := ⟨(h.balanced hfits).delivered, (h.balanced hfits).targets⟩

theorem Accounts.carried (h : Accounts config members leader calls passages n)
    (hstands : Stands config members leader calls n)
    (herrands : later.map (·.toErrand) = c.errands members leader calls)
    (hcarried : n.Carried later n') :
    Accounts config members leader (calls ++ [c]) (passages ++ later) n' where
  errands := by
    rw [errands_append_singleton, List.nil_append, List.map_append, h.errands, herrands]
  copies p hp := by
    rcases List.mem_append.mp hp with hp | hp
    · exact h.copies p hp
    · have hearlier : p.earlier = calls :=
        earlier_of_mem_errands (herrands ▸ List.mem_map_of_mem hp)
      rw [hearlier, ← hstands.config]
      exact (hcarried.copies p hp).congr (hstands.cut _ _)
  inboxes v hv := by
    rw [hcarried.inboxes v _ (h.inboxes v hv), hstands.config, List.flatMap_append]
  waiting := by rw [hcarried.waiting, h.waiting, total_append]
  balanced hfits := by
    obtain ⟨hbefore, hafter⟩ := List.forall_mem_append.mp hfits
    rw [List.length_append]
    exact hcarried.balanced (hstands.config ▸ hafter) _ (h.balanced hbefore)

section Draws

variable [WordSource σ]

theorem pos_of_decide? {chance : Float} {random : σ} (h : (decide? chance random).1 = true) :
    0 < chance := by
  unfold decide? at h
  split at h
  · assumption
  · cases h

theorem decided_copies (source target : ValidatorId) :
    n.Decided source target (n.copies source target).1 (n.copies source target).2 := by
  have hkept : ∀ random stats, n.Kept { n with random, stats } :=
    fun _ _ => ⟨rfl, rfl, rfl, rfl, rfl⟩
  unfold copies
  split
  case isTrue hcut =>
    exact ⟨hkept _ _, rfl, ⟨Nat.zero_le 2, nofun, fun _ _ hpass => absurd hcut hpass,
      fun _ => Nat.zero_le 1⟩, rfl, by simp only; omega⟩
  case isFalse hpass =>
    simp only
    split
    case isTrue hlost =>
      exact ⟨hkept _ _, rfl, ⟨Nat.zero_le 2, nofun,
        fun hloss => absurd (pos_of_decide? hlost) hloss, fun _ => Nat.zero_le 1⟩, rfl,
        by simp only; omega⟩
    case isFalse =>
      split
      case isTrue htwice =>
        exact ⟨hkept _ _, rfl, ⟨Nat.le_refl 2, fun _ => hpass, fun _ _ _ => Nat.zero_lt_two,
          fun hduplicates => absurd (pos_of_decide? htwice) hduplicates⟩, rfl,
          by simp only; omega⟩
      case isFalse =>
        exact ⟨hkept _ _, rfl, ⟨Nat.le_succ 1, fun _ => hpass, fun _ _ _ => Nat.zero_lt_one,
          fun _ => Nat.le_refl 1⟩, rfl, by simp only; omega⟩

theorem exists_carried_of_deliver (earlier : List Call) (source : ValidatorId) (m : Message)
    {targets : List ValidatorId} (htargets : ∀ t ∈ targets, t ∈ n.members) :
    ∃ passages, passages.map (·.toErrand) = targets.map (⟨earlier, source, ·, m⟩) ∧
      n.Carried passages (n.deliver source (carry n.config m) targets).2 := by
  induction targets generalizing n with
  | nil => exact ⟨[], rfl, carried_nil n.stats.sent⟩
  | cons target rest ih =>
      obtain ⟨htarget, hrest⟩ := List.forall_mem_cons.mp htargets
      obtain ⟨i, hi⟩ := Table.exists_get?_of_mem_keys htarget
      -- what follows once the first target is served
      have hnext : ∀ {p : Passage} {n₁ : Network σ}, p.toErrand = ⟨earlier, source, target, m⟩ →
          n.Carried [p] n₁ → ∃ passages,
            passages.map (·.toErrand) = (target :: rest).map (⟨earlier, source, ·, m⟩) ∧
              n.Carried passages (n₁.deliver source (carry n.config m) rest).2 := by
        intro p n₁ hp hfirst
        obtain ⟨passages, herrands, hlater⟩ :=
          ih fun t ht => hfirst.kept.members.symm ▸ hrest t ht
        rw [hfirst.kept.config] at hlater
        exact ⟨p :: passages, by rw [List.map_cons, List.map_cons, herrands, hp],
          hfirst.append hlater⟩
      have hdecided := n.decided_copies source target
      unfold deliver
      rw [hi]
      rcases hcopies : n.copies source target with ⟨copies, n₁⟩
      rw [hcopies] at hdecided
      have hfirst := hdecided.carried (e := ⟨earlier, source, target, m⟩) hi
      cases copies with
      | zero => exact hnext rfl hfirst
      | succ copies =>
          cases hcarry : carry n.config m with
          | error cause =>
              have hunfit : ¬m.Fits n.config := fun hfits => by
                rw [carry_of_fits hfits] at hcarry
                cases hcarry
              refine ⟨((target :: rest).map (⟨earlier, source, ·, m⟩)).map (⟨·, 0⟩), ?_,
                carried_of_unfit hdecided.kept hdecided.inboxes (List.cons_ne_nil _ _)
                  (List.forall_mem_map.mpr fun _ _ => hunfit)⟩
              rw [List.map_map]
              exact List.map_id _
          | ok arriving =>
              have hserved := hnext rfl hfirst
              rw [hcarry, ← eq_received_of_carry hcarry] at hserved
              exact hserved

theorem exists_carried_of_send (hopen : n.closed = false) (earlier : List Call)
    (source : ValidatorId) (m : Message) {targets : List ValidatorId}
    (htargets : ∀ t ∈ targets, t ∈ n.members) :
    ∃ passages, passages.map (·.toErrand) = targets.map (⟨earlier, source, ·, m⟩) ∧
      n.Carried passages (n.send source targets m).2 := by
  have hcounted := n.carried_nil (n.stats.sent + 1)
  obtain ⟨passages, herrands, hcarried⟩ :=
    exists_carried_of_deliver earlier source m (hcounted.kept.members.symm ▸ htargets)
  unfold send
  rw [if_neg (Bool.eq_false_iff.mp hopen)]
  exact ⟨passages, herrands, hcounted.append hcarried⟩

-- Where a copy of a message that does not fit would pass, it is counted but does not arrive.
theorem delivered_ne_waiting_of_unfit {source target : ValidatorId} {m : Message}
    (hunfit : ¬m.Fits n.config) {i : Inbox} (hi : n.inboxes.get? target = some i)
    (hpass : 0 < (n.copies source target).1) (hn : n.stats.delivered = n.waiting)
    (rest : List ValidatorId) :
    (n.deliver source (carry n.config m) (target :: rest)).2.stats.delivered ≠
      (n.deliver source (carry n.config m) (target :: rest)).2.waiting := by
  have hdecided := n.decided_copies source target
  rcases hcopies : n.copies source target with ⟨copies, n'⟩
  rw [hcopies] at hpass hdecided
  have hmore := hdecided.delivered
  have hwaiting : n'.waiting = n.waiting := by rw [waiting, hdecided.inboxes, ← waiting]
  rw [carry_of_unfit hunfit, deliver, hi]
  simp only [hcopies]
  cases copies with
  | zero => exact absurd hpass (Nat.lt_irrefl 0)
  | succ copies =>
      simp only at hmore ⊢
      omega

def after (n : Network σ) : Call → Network σ
  | .partition a b => n.partition a b
  | .isolate v => n.isolate v
  | .heal => n.heal
  | .broadcast source m => (n.broadcast source m).2
  | .sendToLeader source m => (n.sendToLeader source m).2

def run (n : Network σ) (calls : List Call) : Network σ :=
  calls.foldl after n

theorem exists_accounts_send (hstands : Stands config members leader calls n)
    (h : Accounts config members leader calls passages n) {source : ValidatorId} {m : Message}
    {targets : List ValidatorId} (htargets : ∀ t ∈ targets, t ∈ members)
    (herrands : c.errands members leader calls = targets.map (⟨calls, source, ·, m⟩))
    (hcuts : ∀ x y, ¬c.Cuts members x y) (hheal : c ≠ .heal) :
    Stands config members leader (calls ++ [c]) (n.send source targets m).2 ∧
      ∃ later, Accounts config members leader (calls ++ [c]) (passages ++ later)
        (n.send source targets m).2 := by
  obtain ⟨later, hlater, hcarried⟩ :=
    exists_carried_of_send hstands.opened calls source m (hstands.members.symm ▸ htargets)
  exact ⟨hstands.kept hcarried.kept hcuts hheal, later,
    h.carried hstands (hlater.trans herrands.symm) hcarried⟩

theorem exists_accounts_after (hleader : leader ∈ members)
    (hstands : Stands config members leader calls n)
    (h : Accounts config members leader calls passages n) (c : Call) :
    Stands config members leader (calls ++ [c]) (n.after c) ∧
      ∃ later, Accounts config members leader (calls ++ [c]) (passages ++ later) (n.after c) := by
  cases c with
  | partition a b =>
      exact ⟨hstands.partition (fun _ _ _ => .rfl) nofun, [],
        (List.append_nil passages).symm ▸ h.recut rfl _⟩
  | isolate v =>
      refine ⟨hstands.partition (fun x y hxy => ?_) nofun, [],
        (List.append_nil passages).symm ▸ h.recut rfl _⟩
      simp only [Call.Cuts, hstands.members, List.mem_singleton, List.mem_filter, Bool.not_eq_true',
        decide_eq_false_iff_not]
      grind
  | heal =>
      exact ⟨hstands.heal, [], (List.append_nil passages).symm ▸ h.recut rfl _⟩
  | broadcast source m =>
      rw [after, broadcast, hstands.members]
      exact exists_accounts_send hstands h (fun _ ht => ht) rfl (fun _ _ => id) nofun
  | sendToLeader source m =>
      rw [after, sendToLeader, hstands.leader]
      exact exists_accounts_send hstands h (fun _ ht => List.mem_singleton.mp ht ▸ hleader) rfl
        (fun _ _ => id) nofun

end Draws

theorem mem_sorted {v : ValidatorId} {vs : List ValidatorId} :
    v ∈ ValidatorId.sorted vs ↔ v ∈ vs :=
  Ascending.mem_ofList _ fun _ _ h => congrArg ValidatorId.mk (UInt64.toNat_inj.mp h)

theorem stands_ofSource (random : σ) (config : NetworkConfig) (committee : List ValidatorId)
    (leader : ValidatorId) : Stands config (ValidatorId.sorted committee) leader []
      (ofSource random config committee leader) where
  config := rfl
  leader := rfl
  members := (List.map_map ..).trans (List.map_id _)
  opened := rfl
  cut x y := by simp [isCut_eq_true_iff, ofSource, Severed]

theorem accounts_ofSource (random : σ) (config : NetworkConfig) (committee : List ValidatorId)
    (leader : ValidatorId) : Accounts config (ValidatorId.sorted committee) leader [] []
      (ofSource random config committee leader) := by
  have hwaiting : (ofSource random config committee leader).waiting = 0 :=
    List.sum_eq_zero (by simp [ofSource, Inbox.empty])
  constructor
  case errands => rfl
  case copies => exact fun p hp => absurd hp List.not_mem_nil
  case inboxes => exact fun v hv => Table.find_map_of_mem (fun _ => Inbox.empty) hv
  case waiting => exact hwaiting
  case balanced => exact fun _ => ⟨hwaiting.symm, rfl⟩

-- Whatever is cut, repaired and sent, each inbox holds in order what was addressed to it and could
-- get there. A copy is counted before it is read, so the counters are right only while every message
-- can be read behind the wire.
theorem exists_accounts_run [WordSource σ] (random : σ) (config : NetworkConfig)
    {committee : List ValidatorId} {leader : ValidatorId} (hleader : leader ∈ committee)
    (calls : List Call) :
    ∃ passages, Accounts config (ValidatorId.sorted committee) leader calls passages
      ((ofSource random config committee leader).run calls) := by
  suffices hrun : Stands config (ValidatorId.sorted committee) leader calls
        ((ofSource random config committee leader).run calls) ∧
      ∃ passages, Accounts config (ValidatorId.sorted committee) leader calls passages
        ((ofSource random config committee leader).run calls) from hrun.2
  induction calls using List.reverseRecOn with
  | nil => exact ⟨stands_ofSource .., [], accounts_ofSource ..⟩
  | append_singleton calls c ih =>
      obtain ⟨hstands, passages, haccounts⟩ := ih
      obtain ⟨hnext, later, hlater⟩ :=
        exists_accounts_after (mem_sorted.mpr hleader) hstands haccounts c
      rw [run, List.foldl_append]
      exact ⟨hnext, _, hlater⟩

def report : Message where
  kind := .echo
  block :=
    { header := ⟨.zero, some .zero⟩
      height := ⟨1⟩
      transactions := []
      sealedBy := none
      votes := [] }
  sender := ⟨1⟩
  round := Round.echo

-- A validator is isolated while another one broadcasts, and sends to the leader once it is back.
def isolation : List Call :=
  [.isolate ⟨2⟩, .broadcast ⟨1⟩ report, .heal, .sendToLeader ⟨2⟩ report]

-- The words are drawn in pairs: the leader's copy of the broadcast is kept and doubled, the
-- sender's own is lost, and what is sent last arrives once.
def lossy : Network (List UInt32) :=
  ofSource [0, 4294967295, 0, 0, 0, 0, 0, 4294967295, 0, 4294967295]
    { loss := 0.5, duplicates := 0.5 } [⟨0⟩, ⟨1⟩, ⟨2⟩] ⟨0⟩

-- All that is sent in those calls is the report.
theorem message_of_mem_errands_isolation {e : Errand}
    (h : e ∈ errands (ValidatorId.sorted [⟨0⟩, ⟨1⟩, ⟨2⟩]) ⟨0⟩ [] isolation) :
    e.message = report := by
  simp only [isolation, errands, Call.errands, List.nil_append, List.append_nil, List.mem_append,
    List.mem_map, List.mem_singleton] at h
  rcases h with ⟨t, -, rfl⟩ | rfl <;> rfl

theorem exists_accounts_run_lossy :
    (⟨0⟩ : ValidatorId) ∈ [(⟨0⟩ : ValidatorId), ⟨1⟩, ⟨2⟩] ∧ ∃ passages,
      Accounts { loss := 0.5, duplicates := 0.5, wire := true }
        (ValidatorId.sorted [⟨0⟩, ⟨1⟩, ⟨2⟩]) ⟨0⟩ isolation passages (lossy.run isolation) ∧
      (∀ p ∈ passages, p.message.payload.length < Nat.pow 2 32) ∧
      (lossy.run isolation).Balanced 4 ∧ passages.length = 4 ∧ total passages = 3 := by
  have hleader : (⟨0⟩ : ValidatorId) ∈ [(⟨0⟩ : ValidatorId), ⟨1⟩, ⟨2⟩] := List.mem_cons_self
  have hstats : (lossy.run isolation).stats = ⟨2, 3, 2, 1⟩ := by decide +kernel
  obtain ⟨passages, haccounts⟩ := exists_accounts_run
    ([0, 4294967295, 0, 0, 0, 0, 0, 4294967295, 0, 4294967295] : List UInt32)
    { loss := 0.5, duplicates := 0.5 } hleader isolation
  have hshort : ∀ p ∈ passages, p.message.payload.length < Nat.pow 2 32 := by
    intro p hp
    have herrand := haccounts.errands ▸ List.mem_map_of_mem hp
    rw [message_of_mem_errands_isolation herrand]
    decide +kernel
  have hbalanced := haccounts.balanced fun p hp _ => hshort p hp
  have hlength : passages.length = 4 := by
    have hcount := congrArg List.length haccounts.errands
    rw [List.length_map] at hcount
    exact hcount
  rw [hlength] at hbalanced
  have hdelivered := hbalanced.delivered
  rw [← lossy, hstats] at hdelivered
  exact ⟨hleader, passages, haccounts, hshort, hbalanced, hlength,
    haccounts.waiting.symm.trans hdelivered.symm⟩

-- A report on a block of so many transactions, which takes more than a byte for each.
def crowdedReport (count : Nat) : Message :=
  { report with
    block := { report.block with
      transactions := .replicate count (.unsigned ⟨0⟩ ⟨0⟩ [] []) } }

theorem not_fits_crowdedReport {count : Nat} (h : Nat.pow 2 32 ≤ count) :
    ¬(crowdedReport count).Fits {} := by
  intro hfits
  have hlength := (crowdedReport count).length_transactions_le
  have hcount : (crowdedReport count).block.transactions.length = count := List.length_replicate
  have hshort := hfits rfl
  rw [hcount] at hlength
  exact Nat.lt_irrefl _ (Nat.lt_of_le_of_lt (Nat.le_trans h hlength) hshort)

-- Two members on a network that neither loses nor repeats.
def lossless : Network (List UInt32) :=
  ofSource [] {} [⟨0⟩, ⟨1⟩] ⟨0⟩

theorem run_broadcast_lossless (m : Message) : lossless.run [.broadcast ⟨0⟩ m] =
    ({ lossless with stats := { sent := 1 } }.deliver ⟨0⟩ (carry {} m) [⟨0⟩, ⟨1⟩]).2 :=
  rfl

section Unfit

variable {m : Message} (hunfit : ¬m.Fits {})

include hunfit

theorem delivered_ne_waiting_lossless : (lossless.run [.broadcast ⟨0⟩ m]).stats.delivered ≠
    (lossless.run [.broadcast ⟨0⟩ m]).waiting := by
  rw [run_broadcast_lossless]
  exact delivered_ne_waiting_of_unfit (n := { lossless with stats := { sent := 1 } }) hunfit
    (i := .empty) rfl (by decide +kernel) rfl _

-- The send ends at the first copy.
theorem stats_lossless : (lossless.run [.broadcast ⟨0⟩ m]).stats = ⟨1, 1, 0, 0⟩ := by
  rw [run_broadcast_lossless, carry_of_unfit hunfit]
  decide +kernel

end Unfit

-- One report that outgrows its size, for both of them.
def crowding : List Call :=
  [.broadcast ⟨0⟩ (crowdedReport (Nat.pow 2 32))]

-- The leader's copy is counted before it turns out that it cannot be read, so nothing waits for it,
-- and nothing is counted for the other member.
theorem not_balanced_of_crowded :
    (⟨0⟩ : ValidatorId) ∈ [(⟨0⟩ : ValidatorId), ⟨1⟩] ∧
      (lossless.run crowding).stats.delivered ≠ (lossless.run crowding).waiting ∧
      (lossless.run crowding).stats.delivered + (lossless.run crowding).stats.dropped -
          (lossless.run crowding).stats.duplicated ≠
        (errands (ValidatorId.sorted [⟨0⟩, ⟨1⟩]) ⟨0⟩ [] crowding).length := by
  have hunfit := not_fits_crowdedReport (Nat.le_refl (Nat.pow 2 32))
  have htargets : (errands (ValidatorId.sorted [⟨0⟩, ⟨1⟩]) ⟨0⟩ [] crowding).length = 2 := by
    rw [crowding, errands, errands, List.append_nil, Call.errands, List.length_map]
    decide +kernel
  rw [htargets, crowding, stats_lossless hunfit]
  have hdelivered := delivered_ne_waiting_lossless hunfit
  rw [stats_lossless hunfit] at hdelivered
  exact ⟨List.mem_cons_self, hdelivered, by decide⟩

end Network

end QuorumLedger
