import Mathlib.Data.List.Forall2
import Mathlib.Data.List.Perm.Basic
import QuorumLedger.Proofs.Consensus.Shape

namespace QuorumLedger.Role

section After

variable {α : Type} [DecidableEq α] {x y : α} {xs front back : List α}

-- `y` is listed next to the first `x`, where the list starts again at its end.
def Follows (xs : List α) (x y : α) : Prop :=
  ∃ front back, xs = front ++ x :: back ∧ x ∉ front ∧ (back ++ (front ++ [x])).head? = some y

theorem idxOf?_append_cons (h : x ∉ front) :
    (front ++ x :: back).idxOf? x = some front.length := by
  induction front with
  | nil => simp [List.idxOf?_cons]
  | cons z front ih =>
      obtain ⟨hz, hfront⟩ := List.ne_and_not_mem_of_not_mem_cons h
      simp [List.idxOf?_cons, ih hfront, Ne.symm hz]

theorem after?_append_cons (h : x ∉ front) :
    after? x (front ++ x :: back) = (back ++ (front ++ [x])).head? := by
  have hlength : (front ++ x :: back).length = front.length + 1 + back.length := by
    simp only [List.length_append, List.length_cons]
    omega
  rw [after?, idxOf?_append_cons h]
  simp only [hlength]
  cases back with
  | nil => cases front <;> simp
  | cons y back =>
      rw [Nat.mod_eq_of_lt (by simp only [List.length_cons]; omega)]
      simp

theorem after?_eq_some_iff : after? x xs = some y ↔ Follows xs x y := by
  constructor
  · intro hafter
    by_cases hx : x ∈ xs
    · obtain ⟨front, back, rfl, hfront⟩ := List.eq_append_cons_of_mem hx
      exact ⟨front, back, rfl, hfront, (after?_append_cons hfront).symm.trans hafter⟩
    · rw [after?, List.idxOf?_eq_none_iff.mpr hx] at hafter
      cases hafter
  · rintro ⟨front, back, rfl, hfront, hhead⟩
    exact (after?_append_cons hfront).trans hhead

end After

variable {f : Faults} {self : ValidatorId} {committee : List ValidatorId} {v : ValidatorId}
  {a b : Action} {actions shaped : List Action}

-- The last one of a committee is followed by the first.
theorem victim?_eq_some_iff :
    victim? self committee = some v ↔ Follows committee self v ∧ v ≠ self := by
  simp [victim?, Option.filter_eq_some_iff, after?_eq_some_iff]

example : victim? ⟨3⟩ [⟨0⟩, ⟨1⟩, ⟨2⟩, ⟨3⟩] = some ⟨0⟩ := by
  decide

-- The number that a message carries when it goes out. Only an impersonator changes it, and only if
-- the committee lists it with somebody else behind it.
inductive SentAs (f : Faults) (self : ValidatorId) (committee : List ValidatorId)
    (sender : ValidatorId) : ValidatorId → Prop
  | foreign {v : ValidatorId} (impersonates : f.impersonate = true)
      (next : Follows committee self v) (other : v ≠ self) : SentAs f self committee sender v
  | own (stays : f.impersonate = true → ∀ v, Follows committee self v → v = self) :
      SentAs f self committee sender sender

-- What may become of an action: its kind of message, its block and its round stay, and so does a
-- delivery.
inductive Alters (f : Faults) (self : ValidatorId) (committee : List ValidatorId) :
    Action → Action → Prop
  | toAll {m : Message} {sender : ValidatorId} (wide : f.partialSend = false)
      (named : SentAs f self committee m.sender sender) :
      Alters f self committee (.broadcast m) (.broadcast ⟨m.kind, m.block, sender, m.round⟩)
  | narrowed {m : Message} {sender : ValidatorId} (narrow : f.partialSend = true)
      (named : SentAs f self committee m.sender sender) :
      Alters f self committee (.broadcast m) (.sendToLeader ⟨m.kind, m.block, sender, m.round⟩)
  | toLeader {m : Message} {sender : ValidatorId} (named : SentAs f self committee m.sender sender) :
      Alters f self committee (.sendToLeader m) (.sendToLeader ⟨m.kind, m.block, sender, m.round⟩)
  | delivered {block : Digest} {height : Height} :
      Alters f self committee (.delivered block height) (.delivered block height)

-- What may become of a batch.
inductive Shaped (f : Faults) (self : ValidatorId) (committee : List ValidatorId)
    (actions : List Action) : List Action → Prop
  | silent {shaped : List Action} (crash : f.crash = true) (order : shaped.Sublist actions)
      (kept : ∀ a, shaped.count a = if a.isSend then 0 else actions.count a) :
      Shaped f self committee actions shaped
  | forwards {shaped : List Action} (alive : f.crash = false) (order : f.wrongOrder = false)
      (altered : List.Forall₂ (Alters f self committee) actions shaped) :
      Shaped f self committee actions shaped
  | backwards {shaped : List Action} (alive : f.crash = false) (order : f.wrongOrder = true)
      (altered : List.Forall₂ (Alters f self committee) actions.reverse shaped) :
      Shaped f self committee actions shaped

-- The number that the faults give a message of `sender`.
def nameOf (f : Faults) (victim : Option ValidatorId) (sender : ValidatorId) : ValidatorId :=
  if f.impersonate then victim.getD sender else sender

theorem sentAs_iff {sender name : ValidatorId} :
    SentAs f self committee sender name ↔ nameOf f (victim? self committee) sender = name := by
  constructor
  · intro h
    cases h with
    | foreign impersonates next other =>
        rw [nameOf, if_pos impersonates, victim?_eq_some_iff.mpr ⟨next, other⟩]
        rfl
    | own stays =>
        rw [nameOf]
        split
        · rename_i himpersonate
          cases hvictim : victim? self committee with
          | none => rfl
          | some v =>
              obtain ⟨hnext, hother⟩ := victim?_eq_some_iff.mp hvictim
              exact absurd (stays himpersonate v hnext) hother
        · rfl
  · rintro rfl
    by_cases himpersonate : f.impersonate = true
    · rw [nameOf, if_pos himpersonate]
      cases hvictim : victim? self committee with
      | none =>
          refine .own fun _ v hnext => ?_
          by_contra hother
          rw [victim?_eq_some_iff.mpr ⟨hnext, hother⟩] at hvictim
          cases hvictim
      | some v =>
          obtain ⟨hnext, hother⟩ := victim?_eq_some_iff.mp hvictim
          exact .foreign himpersonate hnext hother
    · rw [nameOf, if_neg himpersonate]
      exact .own fun himpersonate' => absurd himpersonate' himpersonate

-- The name and the target are chosen apart from each other.
theorem altered_eq (f : Faults) (victim : Option ValidatorId) (a : Action) :
    altered f victim a = match a with
      | .broadcast m =>
        if f.partialSend then .sendToLeader { m with sender := nameOf f victim m.sender }
        else .broadcast { m with sender := nameOf f victim m.sender }
      | .sendToLeader m => .sendToLeader { m with sender := nameOf f victim m.sender }
      | .delivered block height => .delivered block height := by
  unfold altered nameOf
  cases a <;> cases f.impersonate <;> cases f.partialSend <;> cases victim <;> rfl

theorem alters_iff : Alters f self committee a b ↔ altered f (victim? self committee) a = b := by
  constructor
  · intro h
    cases h with
    | toAll wide named => rw [altered_eq, ← sentAs_iff.mp named]; simp [wide]
    | narrowed narrow named => rw [altered_eq, ← sentAs_iff.mp named]; simp [narrow]
    | toLeader named => rw [altered_eq, ← sentAs_iff.mp named]
    | delivered => rw [altered_eq]
  · rintro rfl
    rw [altered_eq]
    cases a with
    | broadcast m =>
        dsimp only
        split
        · rename_i hnarrow
          exact .narrowed hnarrow (sentAs_iff.mpr rfl)
        · rename_i hwide
          exact .toAll (by simpa using hwide) (sentAs_iff.mpr rfl)
    | sendToLeader m => exact .toLeader (sentAs_iff.mpr rfl)
    | delivered block height => exact .delivered

theorem forall₂_alters_iff : List.Forall₂ (Alters f self committee) actions shaped ↔
    actions.map (altered f (victim? self committee)) = shaped := by
  have halters : Alters f self committee = fun a b => altered f (victim? self committee) a = b := by
    funext a b
    exact propext alters_iff
  rw [halters, ← List.forall₂_map_left_iff (R := fun a b => a = b), List.forall₂_eq_eq_eq]

-- A part of the batch with all that is no message and no message is what the filter leaves.
theorem silent_iff :
    shaped.Sublist actions ∧ (∀ a, shaped.count a = if a.isSend then 0 else actions.count a) ↔
      actions.filter (fun a => !a.isSend) = shaped := by
  have hcount : ∀ a, (actions.filter fun a => !a.isSend).count a =
      if a.isSend then 0 else actions.count a := by
    intro a
    cases hsend : a.isSend with
    | true => simp [List.count_eq_zero, hsend]
    | false => simp [List.count_filter, hsend]
  constructor
  · rintro ⟨horder, hkept⟩
    have hperm : shaped.Perm (actions.filter fun a => !a.isSend) :=
      List.perm_iff_count.mpr fun a => (hkept a).trans (hcount a).symm
    have hsilent : ∀ a ∈ shaped, (!a.isSend) = true := fun a ha =>
      (List.mem_filter.mp (hperm.mem_iff.mp ha)).2
    have hsublist := horder.filter fun a => !a.isSend
    rw [List.filter_eq_self.mpr hsilent] at hsublist
    exact (hsublist.eq_of_length hperm.length_eq).symm
  · rintro rfl
    exact ⟨List.filter_sublist, hcount⟩

-- The faults decide what becomes of a batch, and this is all they can do to it.
theorem shape_eq_iff (r : Role) :
    r.shape self committee actions = shaped ↔ Shaped r.faults self committee actions shaped := by
  rw [shape_eq]
  constructor
  · intro h
    split at h
    · rename_i hcrash
      obtain ⟨horder, hkept⟩ := silent_iff.mpr h
      exact .silent hcrash horder hkept
    · rename_i hcrash
      have halive : r.faults.crash = false := by simpa using hcrash
      split at h
      · rename_i horder
        exact .backwards halive horder (forall₂_alters_iff.mpr h)
      · rename_i horder
        exact .forwards halive (by simpa using horder) (forall₂_alters_iff.mpr h)
  · intro h
    cases h with
    | silent crash order kept => rw [if_pos crash, silent_iff.mp ⟨order, kept⟩]
    | forwards alive order altered =>
        simpa [alive, order] using forall₂_alters_iff.mp altered
    | backwards alive order altered =>
        simpa [alive, order] using forall₂_alters_iff.mp altered

end QuorumLedger.Role
