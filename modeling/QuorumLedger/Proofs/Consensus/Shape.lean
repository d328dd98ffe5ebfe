import QuorumLedger.Consensus.Role

namespace QuorumLedger.Role

-- The roles without faults.
def IsHonest (r : Role) : Prop :=
  r.faults = .none

instance (r : Role) : Decidable r.IsHonest :=
  inferInstanceAs (Decidable (r.faults = .none))

theorem IsHonest.participates {r : Role} (h : r.IsHonest) : r.participates = true := by
  unfold Role.participates
  rw [show r.faults = .none from h]
  rfl

theorem IsHonest.shape {r : Role} (h : r.IsHonest) (self : ValidatorId)
    (committee : List ValidatorId) (actions : List Action) :
    r.shape self committee actions = actions := by
  unfold Role.shape
  rw [show r.faults = .none from h]
  rfl

-- What becomes of one action of a replica that has not crashed.
def altered (f : Faults) (victim : Option ValidatorId) (a : Action) : Action :=
  let named := if f.impersonate then victim.elim a a.relabel else a
  if f.partialSend then named.toLeaderOnly else named

-- Faults act on the order and on single actions, and neither looks at the other.
theorem shape_eq (r : Role) (self : ValidatorId) (committee : List ValidatorId)
    (actions : List Action) :
    r.shape self committee actions =
      if r.faults.crash then actions.filter fun a => !a.isSend
      else (if r.faults.wrongOrder then actions.reverse else actions).map
        (altered r.faults (victim? self committee)) := by
  have hnamed : ∀ xs : List Action,
      (if r.faults.impersonate then relabelAll self committee xs else xs) = xs.map fun a =>
        if r.faults.impersonate then (victim? self committee).elim a a.relabel else a := by
    intro xs
    unfold relabelAll
    cases r.faults.impersonate <;> cases victim? self committee <;> simp [Action.relabel]
  unfold shape altered
  simp only [hnamed]
  cases r.faults.partialSend <;> simp [Function.comp_def]

theorem altered_induct {Q : Action → Prop} (hrelabel : ∀ v a, Q a → Q (Action.relabel v a))
    (hleader : ∀ a, Q a → Q a.toLeaderOnly) {f : Faults} {victim : Option ValidatorId}
    {a : Action} (h : Q a) : Q (altered f victim a) := by
  have hnamed : Q (if f.impersonate then victim.elim a a.relabel else a) := by
    cases victim with
    | none => simpa using h
    | some v =>
        split
        · exact hrelabel v a h
        · exact h
  rw [altered]
  cases f.partialSend with
  | true => exact hleader _ hnamed
  | false => exact hnamed

theorem forall_mem_shape {Q : Action → Prop} (hrelabel : ∀ v a, Q a → Q (Action.relabel v a))
    (hleader : ∀ a, Q a → Q a.toLeaderOnly) {r : Role} {self : ValidatorId}
    {committee : List ValidatorId} {actions : List Action} (h : ∀ a ∈ actions, Q a) :
    ∀ a ∈ r.shape self committee actions, Q a := by
  intro a ha
  rw [shape_eq] at ha
  split at ha
  · exact h a (List.mem_filter.mp ha).1
  · obtain ⟨b, hb, rfl⟩ := List.mem_map.mp ha
    refine altered_induct hrelabel hleader (h b ?_)
    split at hb
    · exact List.mem_reverse.mp hb
    · exact hb

theorem shape_nil (r : Role) (self : ValidatorId) (committee : List ValidatorId) :
    r.shape self committee [] = [] :=
  List.eq_nil_iff_forall_not_mem.mpr
    (forall_mem_shape (Q := fun _ => False) (fun _ _ h => h) (fun _ h => h) (by simp))

theorem apply_altered {β : Type} {g : Action → β} (hrelabel : ∀ v a, g (Action.relabel v a) = g a)
    (hleader : ∀ a, g a.toLeaderOnly = g a) (f : Faults) (victim : Option ValidatorId)
    (a : Action) : g (altered f victim a) = g a :=
  altered_induct (Q := fun b => g b = g a) (fun v b hb => (hrelabel v b).trans hb)
    (fun b hb => (hleader b).trans hb) rfl

-- Faults reorder, but drop nothing that is no message.
theorem perm_filterMap_shape {β : Type} {f : Action → Option β} (r : Role)
    (hrelabel : ∀ v a, f (Action.relabel v a) = f a) (hleader : ∀ a, f a.toLeaderOnly = f a)
    (hsend : ∀ a, a.isSend = true → f a = none) (self : ValidatorId)
    (committee : List ValidatorId) (actions : List Action) :
    ((r.shape self committee actions).filterMap f).Perm (actions.filterMap f) := by
  rw [shape_eq]
  split
  · have hkept : (actions.filter fun a => !a.isSend).filterMap f = actions.filterMap f := by
      rw [List.filterMap_filter]
      congr 1
      funext a
      cases ha : a.isSend with
      | true => simp [hsend a ha]
      | false => rfl
    rw [hkept]
  · simp only [List.filterMap_map, Function.comp_def, apply_altered hrelabel hleader]
    split
    · rw [List.filterMap_reverse]
      exact List.reverse_perm _
    · exact .refl _

-- Faults may drop actions but repeat none.
theorem countP_shape_le {p : Action → Bool} (hrelabel : ∀ v a, p (Action.relabel v a) = p a)
    (hleader : ∀ a, p a.toLeaderOnly = p a) (r : Role) (self : ValidatorId)
    (committee : List ValidatorId) (actions : List Action) :
    (r.shape self committee actions).countP p ≤ actions.countP p := by
  rw [shape_eq]
  split
  · exact List.filter_sublist.countP_le
  · simp only [List.countP_map, Function.comp_def, apply_altered hrelabel hleader]
    split
    · exact Nat.le_of_eq List.countP_reverse
    · exact Nat.le_refl _

end QuorumLedger.Role
