namespace QuorumLedger.Ascending

variable {α : Type} (rank : α → Nat)

-- An element of the same rank keeps its place.
def insert (a : α) : List α → List α
  | [] => [a]
  | b :: rest =>
    if rank a < rank b then a :: b :: rest
    else if rank a = rank b then b :: rest
    else b :: insert a rest

def ofList (xs : List α) : List α :=
  xs.foldl (fun sorted x => insert rank x sorted) []

theorem mem_insert (inj : ∀ a b, rank a = rank b → a = b) {a c : α} {xs : List α} :
    c ∈ insert rank a xs ↔ c = a ∨ c ∈ xs := by
  induction xs with
  | nil => simp [insert]
  | cons b rest ih =>
    unfold insert
    split
    · simp
    · split
      · rename_i h
        rw [inj a b h]
        simp
      · simp only [List.mem_cons, ih]
        constructor
        · rintro (h | h | h) <;> simp [h]
        · rintro (h | h | h) <;> simp [h]

theorem mem_ofList (inj : ∀ a b, rank a = rank b → a = b) {c : α} {xs : List α} :
    c ∈ ofList rank xs ↔ c ∈ xs := by
  have h : ∀ (xs sorted : List α), c ∈ xs.foldl (fun sorted x => insert rank x sorted) sorted ↔
      c ∈ sorted ∨ c ∈ xs := by
    intro xs
    induction xs with
    | nil => simp
    | cons x rest ih =>
      intro sorted
      simp only [List.foldl_cons, ih, mem_insert rank inj, List.mem_cons]
      constructor
      · rintro ((h | h) | h) <;> simp [h]
      · rintro (h | h | h) <;> simp [h]
  simpa [ofList] using h xs []

end QuorumLedger.Ascending
