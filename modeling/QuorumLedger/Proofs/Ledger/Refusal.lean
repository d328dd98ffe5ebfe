import QuorumLedger.Proofs.Ledger.BlockCheck
import QuorumLedger.Proofs.Ledger.Value

namespace QuorumLedger

-- The first repeat is where the longest front without repeats ends.
theorem firstRepeat_eq_some_iff {α : Type} [DecidableEq α] {seen xs : List α} {x : α} :
    firstRepeat seen xs = some x ↔
      ∃ before after, xs = before ++ x :: after ∧ before.Nodup ∧ (∀ y ∈ before, y ∉ seen) ∧
        (x ∈ seen ∨ x ∈ before) := by
  induction xs generalizing seen with
  | nil => simp [firstRepeat]
  | cons y rest ih =>
      by_cases hy : y ∈ seen
      · simp only [firstRepeat, hy, if_true, Option.some.injEq]
        constructor
        · rintro rfl
          exact ⟨[], rest, rfl, .nil, by simp, .inl hy⟩
        · rintro ⟨before, after, hsplit, -, hnew, -⟩
          cases before with
          | nil => exact (List.cons.inj hsplit).1
          | cons z before =>
              obtain rfl := (List.cons.inj hsplit).1
              exact absurd hy (hnew y List.mem_cons_self)
      · simp only [firstRepeat, hy, if_false, ih]
        constructor
        · rintro ⟨before, after, rfl, hnodup, hnew, hx⟩
          have hapart : y ∉ before := fun hm => hnew y hm List.mem_cons_self
          refine ⟨y :: before, after, rfl, List.nodup_cons.mpr ⟨hapart, hnodup⟩, ?_, ?_⟩
          · exact List.forall_mem_cons.mpr
              ⟨hy, fun z hz hs => hnew z hz (List.mem_cons_of_mem y hs)⟩
          · simpa only [List.mem_cons, or_assoc, or_left_comm] using hx
        · rintro ⟨before, after, hsplit, hnodup, hnew, hx⟩
          cases before with
          | nil =>
              obtain rfl := (List.cons.inj hsplit).1
              exact absurd (hx.resolve_right List.not_mem_nil) hy
          | cons z before =>
              obtain ⟨rfl, rfl⟩ := List.cons.inj hsplit
              obtain ⟨hapart, hnodup⟩ := List.nodup_cons.mp hnodup
              refine ⟨before, after, rfl, hnodup, fun w hw hs => ?_, ?_⟩
              · rcases List.mem_cons.mp hs with rfl | hs
                · exact hapart hw
                · exact hnew w (List.mem_cons_of_mem _ hw) hs
              · simpa only [List.mem_cons, or_assoc, or_left_comm] using hx

theorem sumFrom?_eq_none_iff {first : UInt64} {values : List UInt64} :
    sumFrom? first values = none ↔
      UInt64.size ≤ first.toNat + (values.map UInt64.toNat).sum := by
  cases hsum : sumFrom? first values with
  | some sum =>
      have hfits := sumFrom?_eq_some_iff.mp hsum
      have hbound := sum.toNat_lt
      refine iff_of_false (by simp) ?_
      simp only [UInt64.size]
      omega
  | none =>
      refine iff_of_true rfl ?_
      by_contra hfits
      have hsome : sumFrom? first values =
          some (UInt64.ofNat (first.toNat + (values.map UInt64.toNat).sum)) :=
        sumFrom?_eq_some_iff.mpr (UInt64.toNat_ofNat_of_lt' (by omega)).symm
      rw [hsum] at hsome
      cases hsome

namespace Transaction

variable {t : Transaction} {view : LedgerView}

-- Spends live outputs and pays what they hold to known receivers, all told in unbounded numbers.
structure Transfers (t : Transaction) (view : LedgerView) : Prop where
  spends : t.inputs ≠ []
  live : ∀ r ∈ t.inputs, view.unspent.contains r = true
  balanced : (t.inputs.map view.unspent.valueAt).sum = valueOf t.outputs
  fits : valueOf t.outputs < UInt64.size
  known : ∀ o ∈ t.outputs, o.receiver ∈ view.receivers

-- A transaction that moves nothing is sound, and so is one that transfers value.
def Sound (t : Transaction) (view : LedgerView) : Prop :=
  (t.inputs = [] ∧ t.outputs = []) ∨ t.Transfers view

theorem check_eq_ok_iff_sound : t.check view = .ok () ↔ t.Sound view := by
  rw [check_eq_ok_iff]
  refine or_congr_right ⟨?_, ?_⟩
  · rintro ⟨hspends, hlive, hbalanced, hfits, hknown⟩
    exact ⟨hspends, hlive, hbalanced, hfits, hknown⟩
  · rintro ⟨hspends, hlive, hbalanced, hfits, hknown⟩
    exact ⟨hspends, hlive, hbalanced, hfits, hknown⟩

-- The ways in which a transaction fails. Inputs are looked at one after the other, so one that is
-- not live counts only if the sum of those before it fits.
inductive Refused (t : Transaction) (view : LedgerView) : LedgerError → Prop
  | coinbase (mints : t.inputs = []) (pays : t.outputs ≠ []) :
      Refused t view (.coinbaseWithOutputs t.id)
  | unknownInput {before after : List OutputRef} {r : OutputRef}
      (split : t.inputs = before ++ r :: after)
      (live : ∀ s ∈ before, view.unspent.contains s = true)
      (fits : (before.map view.unspent.valueAt).sum < UInt64.size)
      (gone : view.unspent.contains r = false) : Refused t view (.unknownInput t.id r)
  | inputOverflow {before after : List OutputRef} (split : t.inputs = before ++ after)
      (live : ∀ s ∈ before, view.unspent.contains s = true)
      (exceeds : UInt64.size ≤ (before.map view.unspent.valueAt).sum) :
      Refused t view (.valueOverflow t.id)
  | outputOverflow (spends : t.inputs ≠ [])
      (live : ∀ r ∈ t.inputs, view.unspent.contains r = true)
      (fits : (t.inputs.map view.unspent.valueAt).sum < UInt64.size)
      (exceeds : UInt64.size ≤ valueOf t.outputs) : Refused t view (.valueOverflow t.id)
  | mismatch {paidIn paidOut : UInt64} (spends : t.inputs ≠ [])
      (live : ∀ r ∈ t.inputs, view.unspent.contains r = true)
      (takes : (t.inputs.map view.unspent.valueAt).sum = paidIn.toNat)
      (pays : valueOf t.outputs = paidOut.toNat) (differ : paidIn ≠ paidOut) :
      Refused t view (.valueMismatch t.id paidIn paidOut)
  | unknownReceiver {before after : List Output} {o : Output} (spends : t.inputs ≠ [])
      (live : ∀ r ∈ t.inputs, view.unspent.contains r = true)
      (balanced : (t.inputs.map view.unspent.valueAt).sum = valueOf t.outputs)
      (fits : valueOf t.outputs < UInt64.size) (split : t.outputs = before ++ o :: after)
      (known : ∀ p ∈ before, p.receiver ∈ view.receivers) (foreign : o.receiver ∉ view.receivers) :
      Refused t view (.unknownReceiver t.id o.receiver)

-- Inputs are added up to the first that is not live or takes the sum too far.
theorem exists_split_of_inputTotal {u : UnspentSet} {first : UInt64} {inputs : List OutputRef}
    {e : LedgerError} (h : t.inputTotal u first inputs = .error e) :
    ∃ before after, inputs = before ++ after ∧ (∀ s ∈ before, u.contains s = true) ∧
      ((UInt64.size ≤ first.toNat + (before.map u.valueAt).sum ∧ e = .valueOverflow t.id) ∨
        (first.toNat + (before.map u.valueAt).sum < UInt64.size ∧
          ∃ r ∈ after.head?, u.contains r = false ∧ e = .unknownInput t.id r)) := by
  induction inputs generalizing first with
  | nil => cases h
  | cons r rest ih =>
      cases hget : u.get? r with
      | none =>
          have hgone := UnspentSet.contains_eq_false_iff.mpr hget
          have he : e = .unknownInput t.id r := by simpa [inputTotal, hget, eq_comm] using h
          exact ⟨[], r :: rest, rfl, by simp, .inr ⟨first.toNat_lt, r, rfl, hgone, he⟩⟩
      | some o =>
          have hlive : u.contains r = true := UnspentSet.contains_iff.mpr ⟨o, hget⟩
          have hvalue := UnspentSet.valueAt_of_get? hget
          cases hadd : addValues? first o.value with
          | none =>
              have he : e = .valueOverflow t.id := by
                simpa [inputTotal, hget, hadd, eq_comm] using h
              have hover : UInt64.size ≤ first.toNat + o.value.toNat := by
                unfold addValues? at hadd
                split at hadd
                · cases hadd
                · omega
              exact ⟨[r], rest, rfl, by simpa using hlive, .inl ⟨by simpa [hvalue] using hover, he⟩⟩
          | some mid =>
              have hmid := addValues?_eq_some_iff.mp hadd
              have hrest : t.inputTotal u mid rest = .error e := by
                simpa [inputTotal, hget, hadd] using h
              obtain ⟨before, after, rfl, hbefore, hreason⟩ := ih hrest
              refine ⟨r :: before, after, rfl, List.forall_mem_cons.mpr ⟨hlive, hbefore⟩, ?_⟩
              rwa [List.map_cons, List.sum_cons, hvalue, ← Nat.add_assoc, hmid]

theorem inputTotal_append (u : UnspentSet) (first : UInt64) (xs ys : List OutputRef) :
    t.inputTotal u first (xs ++ ys) =
      (t.inputTotal u first xs).bind fun mid => t.inputTotal u mid ys := by
  induction xs generalizing first with
  | nil => rfl
  | cons r rest ih =>
      cases hget : u.get? r with
      | none => simp [inputTotal, hget, Except.bind]
      | some o =>
          cases hadd : addValues? first o.value with
          | none => simp [inputTotal, hget, hadd, Except.bind]
          | some mid => simpa [inputTotal, hget, hadd] using ih mid

theorem inputTotal_eq_ok {u : UnspentSet} {inputs : List OutputRef}
    (hlive : ∀ r ∈ inputs, u.contains r = true)
    (hfits : (inputs.map u.valueAt).sum < UInt64.size) :
    t.inputTotal u 0 inputs = .ok (UInt64.ofNat (inputs.map u.valueAt).sum) := by
  refine inputTotal_eq_ok_iff.mpr ⟨hlive, ?_⟩
  rw [UInt64.toNat_ofNat_of_lt' hfits, UInt64.toNat_zero, Nat.zero_add]

theorem inputTotal_of_gone {u : UnspentSet} {before after : List OutputRef} {r : OutputRef}
    (hlive : ∀ s ∈ before, u.contains s = true)
    (hfits : (before.map u.valueAt).sum < UInt64.size) (hgone : u.contains r = false) :
    t.inputTotal u 0 (before ++ r :: after) = .error (.unknownInput t.id r) := by
  rw [inputTotal_append, inputTotal_eq_ok hlive hfits]
  have hget := UnspentSet.contains_eq_false_iff.mp hgone
  simp [Except.bind, inputTotal, hget]

-- No more than the sum so far can be wrong with inputs that are all live.
theorem inputTotal_of_over {u : UnspentSet} {before after : List OutputRef}
    (hlive : ∀ s ∈ before, u.contains s = true)
    (hover : UInt64.size ≤ (before.map u.valueAt).sum) :
    t.inputTotal u 0 (before ++ after) = .error (.valueOverflow t.id) := by
  rw [inputTotal_append]
  cases htotal : t.inputTotal u 0 before with
  | ok sum =>
      have hsum := (inputTotal_eq_ok_iff.mp htotal).2
      have hbound := sum.toNat_lt
      simp only [UInt64.toNat_zero, UInt64.size] at hsum hover
      omega
  | error e =>
      obtain ⟨front, back, rfl, -, hreason⟩ := exists_split_of_inputTotal htotal
      rcases hreason with ⟨-, rfl⟩ | ⟨-, r, hr, hgone, -⟩
      · rfl
      · rw [hlive r (List.mem_append_right _ (List.mem_of_mem_head? hr))] at hgone
        cases hgone

theorem outputTotal_eq_some {outputs : List Output} (hfits : valueOf outputs < UInt64.size) :
    sumFrom? 0 (outputs.map (·.value)) = some (UInt64.ofNat (valueOf outputs)) := by
  refine sumFrom?_eq_some_iff.mpr ?_
  rw [UInt64.toNat_ofNat_of_lt' hfits, UInt64.toNat_zero, Nat.zero_add, List.map_map]
  rfl

theorem outputTotal_eq_none_iff {outputs : List Output} :
    sumFrom? 0 (outputs.map (·.value)) = none ↔ UInt64.size ≤ valueOf outputs := by
  rw [sumFrom?_eq_none_iff, UInt64.toNat_zero, Nat.zero_add, List.map_map]
  rfl

theorem isCoinbase_eq_false (h : t.inputs ≠ []) : t.isCoinbase = false := by
  simpa [isCoinbase] using h

theorem check_of_refused {e : LedgerError} (h : t.Refused view e) : t.check view = .error e := by
  unfold check
  cases h with
  | coinbase mints pays => simp [isCoinbase, mints, pays]
  | @unknownInput before after r split live fits gone =>
      have hspends : t.inputs ≠ [] := by simp [split]
      have htotal : t.inputTotal view.unspent 0 t.inputs = .error (.unknownInput t.id r) :=
        split ▸ inputTotal_of_gone live fits gone
      simp [isCoinbase_eq_false hspends, htotal]
  | @inputOverflow before after split live exceeds =>
      have hspends : t.inputs ≠ [] := by
        rintro hnone
        obtain ⟨rfl, -⟩ := List.append_eq_nil_iff.mp (split.symm.trans hnone)
        simp [UInt64.size] at exceeds
      have htotal : t.inputTotal view.unspent 0 t.inputs = .error (.valueOverflow t.id) :=
        split ▸ inputTotal_of_over live exceeds
      simp [isCoinbase_eq_false hspends, htotal]
  | outputOverflow spends live fits exceeds =>
      simp [isCoinbase_eq_false spends, inputTotal_eq_ok live fits,
        outputTotal_eq_none_iff.mpr exceeds]
  | @mismatch paidIn paidOut spends live takes pays differ =>
      have hin : t.inputTotal view.unspent 0 t.inputs = .ok paidIn :=
        inputTotal_eq_ok_iff.mpr ⟨live, by simpa using takes⟩
      have hout : sumFrom? 0 (t.outputs.map (·.value)) = some paidOut := by
        rw [outputTotal_eq_some (pays ▸ paidOut.toNat_lt), pays, UInt64.ofNat_toNat]
      simp [isCoinbase_eq_false spends, hin, hout, differ]
  | @unknownReceiver before after o spends live balanced fits split known foreign =>
      have hfind : (t.outputs.find? fun o => !decide (o.receiver ∈ view.receivers)) = some o := by
        refine List.find?_eq_some_iff_append.mpr ⟨by simpa using foreign, before, after, split, ?_⟩
        simpa using known
      simp [isCoinbase_eq_false spends, inputTotal_eq_ok live (balanced ▸ fits), balanced,
        outputTotal_eq_some fits, hfind]

theorem refused_of_check {e : LedgerError} (h : t.check view = .error e) : t.Refused view e := by
  by_cases hspends : t.inputs = []
  · by_cases hpays : t.outputs = []
    · simp [check, isCoinbase, hspends, hpays] at h
    · obtain rfl : .coinbaseWithOutputs t.id = e := by
        simpa [check, isCoinbase, hspends, hpays] using h
      exact .coinbase hspends hpays
  · unfold check at h
    simp only [isCoinbase_eq_false hspends, Bool.false_eq_true, if_false] at h
    cases hin : t.inputTotal view.unspent 0 t.inputs with
    | error e' =>
        obtain rfl : e' = e := by simpa [hin] using h
        obtain ⟨before, after, hsplit, hlive, hreason⟩ := exists_split_of_inputTotal hin
        rw [UInt64.toNat_zero, Nat.zero_add] at hreason
        rcases hreason with ⟨hover, rfl⟩ | ⟨hfits, r, hr, hgone, rfl⟩
        · exact .inputOverflow hsplit hlive hover
        · obtain ⟨after, rfl⟩ := List.head?_eq_some_iff.mp hr
          exact .unknownInput hsplit hlive hfits hgone
    | ok paidIn =>
        obtain ⟨hlive, htakes⟩ := inputTotal_eq_ok_iff.mp hin
        rw [UInt64.toNat_zero, Nat.zero_add] at htakes
        cases hout : sumFrom? 0 (t.outputs.map (·.value)) with
        | none =>
            obtain rfl : .valueOverflow t.id = e := by simpa [hin, hout] using h
            exact .outputOverflow hspends hlive (htakes ▸ paidIn.toNat_lt)
              (outputTotal_eq_none_iff.mp hout)
        | some paidOut =>
            have hpays : valueOf t.outputs = paidOut.toNat := by
              have hsum := sumFrom?_eq_some_iff.mp hout
              rwa [UInt64.toNat_zero, Nat.zero_add, List.map_map] at hsum
            by_cases hsame : paidIn = paidOut
            · cases hfind : t.outputs.find? fun o => !decide (o.receiver ∈ view.receivers) with
              | none => simp [hin, hout, hsame, hfind] at h
              | some o =>
                  obtain rfl : .unknownReceiver t.id o.receiver = e := by
                    simpa [hin, hout, hsame, hfind] using h
                  obtain ⟨hforeign, before, after, hsplit, hknown⟩ :=
                    List.find?_eq_some_iff_append.mp hfind
                  refine .unknownReceiver hspends hlive ?_ (hpays ▸ paidOut.toNat_lt) hsplit ?_ ?_
                  · rw [htakes, hpays, hsame]
                  · simpa using hknown
                  · simpa using hforeign
            · obtain rfl : .valueMismatch t.id paidIn paidOut = e := by
                simpa [hin, hout, hsame] using h
              exact .mismatch hspends hlive htakes hpays hsame

end Transaction

namespace Block

theorem checkTransactions_eq_error_iff {view : LedgerView} {transactions : List Transaction}
    {e : LedgerError} :
    checkTransactions view transactions = .error e ↔
      ∃ before t after, transactions = before ++ t :: after ∧
        (∀ s ∈ before, s.check view = .ok ()) ∧ t.check view = .error e := by
  induction transactions with
  | nil => simp [checkTransactions]
  | cons t rest ih =>
      cases ht : t.check view with
      | error e' =>
          simp only [checkTransactions, ht, Except.error.injEq]
          constructor
          · rintro rfl
            exact ⟨[], t, rest, rfl, by simp, ht⟩
          · rintro ⟨before, s, after, hsplit, hbefore, hs⟩
            cases before with
            | nil =>
                obtain rfl := (List.cons.inj hsplit).1
                exact Except.error.inj (ht.symm.trans hs)
            | cons s' before =>
                obtain rfl := (List.cons.inj hsplit).1
                have hpass := hbefore _ List.mem_cons_self
                rw [ht] at hpass
                cases hpass
      | ok _ =>
          simp only [checkTransactions, ht, ih]
          constructor
          · rintro ⟨before, s, after, rfl, hbefore, hs⟩
            exact ⟨t :: before, s, after, rfl, List.forall_mem_cons.mpr ⟨ht, hbefore⟩, hs⟩
          · rintro ⟨before, s, after, hsplit, hbefore, hs⟩
            cases before with
            | nil =>
                obtain rfl := (List.cons.inj hsplit).1
                rw [ht] at hs
                cases hs
            | cons s' before =>
                obtain ⟨rfl, rfl⟩ := List.cons.inj hsplit
                exact ⟨before, s, after, rfl, (List.forall_mem_cons.mp hbefore).2, hs⟩

-- The ways in which a block fails, each only if those before it do not apply.
inductive Refused (b : Block) (view : LedgerView) : LedgerError → Prop
  | root (misfit : Header.rootOf b.transactions ≠ b.header.root) :
      Refused b view (.merkleMismatch b.header.root (Header.rootOf b.transactions))
  | transaction {before after : List Transaction} {t : Transaction} {e : LedgerError}
      (fits : Header.rootOf b.transactions = b.header.root)
      (split : b.transactions = before ++ t :: after) (sound : ∀ s ∈ before, s.Sound view)
      (refused : t.Refused view e) : Refused b view e
  | repeated {before after : List OutputRef} {r : OutputRef}
      (fits : Header.rootOf b.transactions = b.header.root)
      (sound : ∀ t ∈ b.transactions, t.Sound view) (split : b.spent = before ++ r :: after)
      (first : before.Nodup) (again : r ∈ before) : Refused b view (.duplicateInput r)

theorem check_of_refused {b : Block} {view : LedgerView} {e : LedgerError}
    (h : b.Refused view e) : b.check view = .error e := by
  unfold check
  cases h with
  | root misfit => simp [misfit]
  | transaction fits split sound refused =>
      have hfirst : checkTransactions view b.transactions = .error e :=
        checkTransactions_eq_error_iff.mpr ⟨_, _, _, split,
          fun s hs => Transaction.check_eq_ok_iff_sound.mpr (sound s hs),
          Transaction.check_of_refused refused⟩
      simp [fits, hfirst]
  | repeated fits sound split first again =>
      have hall : checkTransactions view b.transactions = .ok () :=
        checkTransactions_eq_ok_iff.mpr
          fun t ht => Transaction.check_eq_ok_iff_sound.mpr (sound t ht)
      have hrepeat := firstRepeat_eq_some_iff.mpr
        ⟨_, _, split, first, fun _ _ => List.not_mem_nil, .inr again⟩
      simp [fits, hall, hrepeat]

theorem refused_of_check {b : Block} {view : LedgerView} {e : LedgerError}
    (h : b.check view = .error e) : b.Refused view e := by
  unfold check at h
  by_cases hroot : Header.rootOf b.transactions = b.header.root
  · cases hall : checkTransactions view b.transactions with
    | error e' =>
        obtain rfl : e' = e := by simpa [hroot, hall] using h
        obtain ⟨before, t, after, hsplit, hbefore, ht⟩ := checkTransactions_eq_error_iff.mp hall
        exact .transaction hroot hsplit
          (fun s hs => Transaction.check_eq_ok_iff_sound.mp (hbefore s hs))
          (Transaction.refused_of_check ht)
    | ok _ =>
        cases hfirst : firstRepeat [] b.spent with
        | none => simp [hroot, hall, hfirst] at h
        | some r =>
            obtain rfl : .duplicateInput r = e := by simpa [hroot, hall, hfirst] using h
            obtain ⟨before, after, hsplit, hnodup, -, hr⟩ := firstRepeat_eq_some_iff.mp hfirst
            have hpass := checkTransactions_eq_ok_iff.mp hall
            exact .repeated hroot (fun t ht => Transaction.check_eq_ok_iff_sound.mp (hpass t ht))
              hsplit hnodup (hr.resolve_left List.not_mem_nil)
  · obtain rfl : .merkleMismatch b.header.root (Header.rootOf b.transactions) = e := by
      simpa [hroot] using h
    exact .root hroot

-- The check asks for nothing else, and where several things are wrong it names the first.
theorem check_verdict (b : Block) (view : LedgerView) :
    (b.check view = .ok () ↔
      Header.rootOf b.transactions = b.header.root ∧ (∀ t ∈ b.transactions, t.Sound view) ∧
        b.spent.Nodup) ∧
      ∀ e, b.check view = .error e ↔ b.Refused view e := by
  refine ⟨?_, fun e => ⟨refused_of_check, check_of_refused⟩⟩
  rw [check_eq_ok_iff]
  simp only [Transaction.check_eq_ok_iff_sound]

end Block

end QuorumLedger
