import QuorumLedger.Consensus.Fault
import QuorumLedger.Proofs.Text.Words

namespace QuorumLedger.Faults

variable {f g : Faults} {e : Faults × String} {s : String} {w : List Char}
  {words : List (List Char)} {u : Unknown}

-- What is left of the pieces of a text: nothing of a blank one, and of any other what stands between
-- the blanks at its ends.
inductive Leaves : List (List Char) → List (List Char) → Prop
  | nil : Leaves [] []
  | blank {piece : List Char} {pieces words : List (List Char)}
      (blank : ∀ c ∈ piece, Text.isBlank c = true) (rest : Leaves pieces words) :
      Leaves (piece :: pieces) words
  | word {piece w : List Char} {pieces words : List (List Char)} (trimmed : Text.Trims piece w)
      (nonempty : w ≠ []) (rest : Leaves pieces words) : Leaves (piece :: pieces) (w :: words)

-- The words of a text that lists names with bars between them.
def Mentions (s : String) (words : List (List Char)) : Prop :=
  ∃ pieces, Text.Cut '|' s.toList pieces ∧ Leaves pieces words

-- What a word stands for, whatever the case of its ASCII letters.
inductive Names (w : List Char) : Faults → Prop
  | nothing (spelled : w.map Char.toLower = "none".toList) : Names w .none
  | fault {e : Faults × String} (listed : e ∈ named) (spelled : w.map Char.toLower = e.2.toList) :
      Names w e.1

def Known (w : List Char) : Prop :=
  ∃ f, Names w f

-- Every word is a name, and the faults that they stand for are those of `f`.
structure Joins (words : List (List Char)) (f : Faults) : Prop where
  known : ∀ w ∈ words, Known w
  flags : ∀ e ∈ named, f.includes e.1 = true ↔ ∃ w ∈ words, Names w e.1

-- The first word that is no name, as it is written.
def FirstUnknown (words : List (List Char)) (u : Unknown) : Prop :=
  ∃ front w back, words = front ++ w :: back ∧ (∀ v ∈ front, Known v) ∧ ¬ Known w ∧
    u = ⟨String.ofList w⟩

theorem leaves_iff {pieces : List (List Char)} : Leaves pieces words ↔
    (pieces.map Text.trim).filter (fun w => !w.isEmpty) = words := by
  constructor
  · intro h
    induction h with
    | nil => rfl
    | blank blank rest ih => simp [Text.trim_eq_nil_iff.mpr blank, ih]
    | word trimmed nonempty rest ih => simp [Text.trim_eq_iff.mpr trimmed, nonempty, ih]
  · rintro rfl
    induction pieces with
    | nil => exact .nil
    | cons piece pieces ih =>
        rw [List.map_cons]
        by_cases hblank : Text.trim piece = []
        · rw [hblank, List.filter_cons_of_neg (by simp)]
          exact .blank (Text.trim_eq_nil_iff.mp hblank) ih
        · rw [List.filter_cons_of_pos (by simpa using hblank)]
          exact .word (Text.trim_eq_iff.mp rfl) hblank ih

theorem mentions_iff : Mentions s words ↔ parts s.toList = words := by
  constructor
  · rintro ⟨pieces, hcut, hleaves⟩
    rw [parts, Text.split_eq_iff.mpr hcut, leaves_iff.mp hleaves]
  · rintro rfl
    exact ⟨_, Text.split_eq_iff.mp rfl, leaves_iff.mpr rfl⟩

-- No two faults have one name, and none is called as their absence is.
theorem find?_named : ∀ e ∈ named, e.2.toList ≠ "none".toList ∧
    named.find? (fun e' => e'.2.toList = e.2.toList) = some e := by
  decide

theorem ofName_eq_ok_iff : ofName w = .ok f ↔ Names w f := by
  constructor
  · intro h
    unfold ofName at h
    simp only at h
    split at h
    · rename_i hnone
      exact Except.ok.inj h ▸ .nothing hnone
    · cases hfind : named.find? fun e => e.2.toList = w.map Char.toLower with
      | none =>
          rw [hfind] at h
          cases h
      | some e =>
          rw [hfind] at h
          have hspelled : e.2.toList = w.map Char.toLower := by simpa using List.find?_some hfind
          exact Except.ok.inj h ▸ .fault (List.mem_of_find?_eq_some hfind) hspelled.symm
  · intro h
    cases h with
    | nothing spelled => simp [ofName, spelled]
    | @fault e listed spelled =>
        obtain ⟨hother, hfind⟩ := find?_named e listed
        rw [ofName, spelled]
        simp only [if_neg hother, hfind]

-- A word that is no name is kept with its case.
theorem ofName_eq_error_iff : ofName w = .error u ↔ ¬ Known w ∧ u = ⟨String.ofList w⟩ := by
  have hcases : (∃ f, ofName w = .ok f) ∨ ofName w = .error ⟨String.ofList w⟩ := by
    unfold ofName
    simp only
    split
    · exact .inl ⟨_, rfl⟩
    · split
      · exact .inl ⟨_, rfl⟩
      · exact .inr rfl
  constructor
  · intro h
    rcases hcases with ⟨f, hok⟩ | herror
    · rw [hok] at h
      cases h
    · refine ⟨fun ⟨f, hnames⟩ => ?_, Except.error.inj (h.symm.trans herror)⟩
      rw [ofName_eq_ok_iff.mpr hnames] at h
      cases h
  · rintro ⟨hunknown, rfl⟩
    exact hcases.resolve_left fun ⟨f, hok⟩ => hunknown ⟨f, ofName_eq_ok_iff.mp hok⟩

@[simp]
theorem none_union (f : Faults) : none.union f = f := by
  cases f
  simp [union, none]

@[simp]
theorem union_none (f : Faults) : f.union none = f := by
  cases f
  simp [union, none]

theorem union_assoc (f g h : Faults) : (f.union g).union h = f.union (g.union h) := by
  simp [union, Bool.or_assoc]

theorem includes_self (f : Faults) : f.includes f = true := by
  simp [includes, union]

theorem includes_union (he : e ∈ named) :
    (f.union g).includes e.1 = true ↔ f.includes e.1 = true ∨ g.includes e.1 = true := by
  obtain ⟨crash, delaySend, partialSend, wrongOrder, impersonate⟩ := f
  obtain ⟨crash', delaySend', partialSend', wrongOrder', impersonate'⟩ := g
  simp only [named, List.mem_cons, List.not_mem_nil, or_false] at he
  rcases he with rfl | rfl | rfl | rfl | rfl <;> simp [includes, union]

-- Faults are known by the single ones among them.
theorem eq_of_includes (h : ∀ e ∈ named, f.includes e.1 = true ↔ g.includes e.1 = true) : f = g := by
  have hall : ∀ e ∈ named, f.includes e.1 = g.includes e.1 := fun e he =>
    Bool.eq_iff_iff.mpr (h e he)
  obtain ⟨crash, delaySend, partialSend, wrongOrder, impersonate⟩ := f
  obtain ⟨crash', delaySend', partialSend', wrongOrder', impersonate'⟩ := g
  simp only [named, List.forall_mem_cons] at hall
  simpa [includes, union] using hall

theorem names_unique (h : Names w f) (h' : Names w g) : f = g :=
  Except.ok.inj ((ofName_eq_ok_iff.mpr h).symm.trans (ofName_eq_ok_iff.mpr h'))

-- A name stands for one fault at most.
theorem includes_iff_names (h : Names w f) (he : e ∈ named) :
    f.includes e.1 = true ↔ Names w e.1 := by
  have hsingle : ∀ e ∈ named, ∀ e' ∈ named, e'.1.includes e.1 = true → e'.1 = e.1 := by decide
  have hnone : ∀ e ∈ named, none.includes e.1 = false := by decide
  constructor
  · intro hincludes
    cases h with
    | nothing spelled =>
        rw [hnone e he] at hincludes
        cases hincludes
    | @fault e' listed spelled => exact hsingle e he e' listed hincludes ▸ .fault listed spelled
  · intro hnames
    rw [names_unique h hnames]
    exact includes_self e.1

-- Nothing that was found before is lost on the way, and nothing is found that is not named.
theorem ofNames_eq_ok_iff {sofar : Faults} : ofNames sofar words = .ok f ↔
    (∀ w ∈ words, Known w) ∧ ∀ e ∈ named,
      f.includes e.1 = true ↔ sofar.includes e.1 = true ∨ ∃ w ∈ words, Names w e.1 := by
  induction words generalizing sofar with
  | nil =>
      constructor
      · intro h
        simp [Except.ok.inj h]
      · rintro ⟨-, hflags⟩
        have hsame : sofar = f := eq_of_includes fun e he => by simpa using (hflags e he).symm
        rw [ofNames, hsame]
  | cons w words ih =>
      rw [ofNames]
      cases hname : ofName w with
      | error u =>
          have hunknown := (ofName_eq_error_iff.mp hname).1
          simp [hunknown]
      | ok g =>
          have hnames : Names w g := ofName_eq_ok_iff.mp hname
          have hknown : Known w := ⟨g, hnames⟩
          have hflags : ∀ e ∈ named, ((sofar.union g).includes e.1 = true ∨
              ∃ v ∈ words, Names v e.1) ↔
                (sofar.includes e.1 = true ∨ ∃ v ∈ w :: words, Names v e.1) := by
            intro e he
            rw [includes_union he, includes_iff_names hnames he, or_assoc]
            simp
          simp only [ih, List.forall_mem_cons, hknown, true_and]
          refine and_congr_right fun _ => forall₂_congr fun e he => ?_
          rw [hflags e he]

theorem firstUnknown_cons : FirstUnknown (w :: words) u ↔
    ¬ Known w ∧ u = ⟨String.ofList w⟩ ∨ Known w ∧ FirstUnknown words u := by
  constructor
  · rintro ⟨front, v, back, hwords, hfront, hunknown, rfl⟩
    cases front with
    | nil =>
        obtain ⟨rfl, -⟩ := List.cons.inj hwords
        exact .inl ⟨hunknown, rfl⟩
    | cons w' front =>
        obtain ⟨rfl, rfl⟩ := List.cons.inj hwords
        obtain ⟨hknown, hfront⟩ := List.forall_mem_cons.mp hfront
        exact .inr ⟨hknown, front, v, back, rfl, hfront, hunknown, rfl⟩
  · rintro (⟨hunknown, rfl⟩ | ⟨hknown, front, v, back, rfl, hfront, hunknown, rfl⟩)
    · exact ⟨[], w, words, rfl, by simp, hunknown, rfl⟩
    · exact ⟨w :: front, v, back, rfl, List.forall_mem_cons.mpr ⟨hknown, hfront⟩, hunknown, rfl⟩

theorem ofNames_eq_error_iff {sofar : Faults} :
    ofNames sofar words = .error u ↔ FirstUnknown words u := by
  induction words generalizing sofar with
  | nil =>
      constructor
      · intro h
        cases h
      · rintro ⟨front, v, back, hwords, -⟩
        simp at hwords
  | cons w words ih =>
      rw [ofNames, firstUnknown_cons]
      cases hname : ofName w with
      | error v =>
          obtain ⟨hunknown, rfl⟩ := ofName_eq_error_iff.mp hname
          simp [hunknown, eq_comm]
      | ok g =>
          have hknown : Known w := ⟨g, ofName_eq_ok_iff.mp hname⟩
          simp [hknown, ih]

theorem ofNames_append (sofar : Faults) (words words' : List (List Char)) :
    ofNames sofar (words ++ words') =
      (ofNames sofar words).bind fun f => ofNames f words' := by
  induction words generalizing sofar with
  | nil => rfl
  | cons w words ih =>
      rw [List.cons_append, ofNames, ofNames]
      cases ofName w with
      | error u => rfl
      | ok g => exact ih (sofar.union g)

-- What was found before does not matter for what is found later.
theorem ofNames_eq_map (sofar : Faults) (words : List (List Char)) :
    ofNames sofar words = (ofNames none words).map sofar.union := by
  induction words generalizing sofar with
  | nil => simp [ofNames, Except.map]
  | cons w words ih =>
      rw [ofNames, ofNames]
      cases ofName w with
      | error u => rfl
      | ok g =>
          simp only [none_union]
          rw [ih (sofar.union g), ih g]
          cases ofNames none words with
          | error u => rfl
          | ok f => exact congrArg Except.ok (union_assoc sofar g f)

theorem parts_append_bar (cs ds : List Char) : parts (cs ++ '|' :: ds) = parts cs ++ parts ds := by
  rw [parts, Text.split_append_cons, List.map_append, List.filter_append]
  rfl

theorem parse_eq_ok_iff : parse s = .ok f ↔ Joins (parts s.toList) f := by
  have hstart : ∀ e ∈ named, (none.includes e.1 = true ∨ ∃ w ∈ parts s.toList, Names w e.1) ↔
      ∃ w ∈ parts s.toList, Names w e.1 := by
    have hnone : ∀ e ∈ named, none.includes e.1 = false := by decide
    intro e he
    simp [hnone e he]
  rw [parse, ofNames_eq_ok_iff]
  constructor
  · rintro ⟨hknown, hflags⟩
    exact ⟨hknown, fun e he => (hflags e he).trans (hstart e he)⟩
  · rintro ⟨hknown, hflags⟩
    exact ⟨hknown, fun e he => (hflags e he).trans (hstart e he).symm⟩

theorem exists_parse_eq_ok_iff : (∃ f, parse s = .ok f) ↔ ∀ w ∈ parts s.toList, Known w := by
  constructor
  · rintro ⟨f, h⟩
    exact (parse_eq_ok_iff.mp h).known
  · intro hknown
    cases h : parse s with
    | ok f => exact ⟨f, rfl⟩
    | error u =>
        obtain ⟨front, w, back, hwords, -, hunknown, -⟩ := ofNames_eq_error_iff.mp h
        exact absurd (hknown w (by simp [hwords])) hunknown

theorem parse_append_bar (s t : String) :
    parse (s ++ "|" ++ t) = (parse s).bind fun f => (parse t).map f.union := by
  have hchars : (s ++ "|" ++ t).toList = s.toList ++ '|' :: t.toList := by simp
  rw [parse, hchars, parts_append_bar, ofNames_append]
  exact congrArg (Except.bind (parse s)) (funext fun f => ofNames_eq_map f (parts t.toList))

-- A word that is no name takes the whole text with it, also what was named before.
theorem parse_verdict (s : String) :
    ∃ words, (∀ words', Mentions s words' ↔ words' = words) ∧
      ((∃ f, parse s = .ok f) ↔ ∀ w ∈ words, Known w) ∧
      (∀ f, parse s = .ok f ↔ Joins words f) ∧
      (∀ u, parse s = .error u ↔ FirstUnknown words u) ∧
      ∀ t, parse (s ++ "|" ++ t) = match parse s, parse t with
        | .ok f, .ok g => .ok (f.union g)
        | .ok _, .error u => .error u
        | .error u, _ => .error u := by
  refine ⟨parts s.toList, fun words' => mentions_iff.trans eq_comm, exists_parse_eq_ok_iff,
    fun f => parse_eq_ok_iff, fun u => ofNames_eq_error_iff, fun t => ?_⟩
  rw [parse_append_bar]
  cases parse s with
  | error u => rfl
  | ok f =>
      cases parse t with
      | error u => rfl
      | ok g => rfl

example : parse " Wrong_Order || nonE |crash" = .ok ⟨true, false, false, true, false⟩ := by
  decide

end QuorumLedger.Faults
