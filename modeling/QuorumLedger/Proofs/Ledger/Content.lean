import QuorumLedger.Ledger.Block

namespace QuorumLedger.Block

-- The same header, height and transactions. Seals and collected votes may differ.
structure Agrees (a b : Block) : Prop where
  header : a.header = b.header
  height : a.height = b.height
  transactions : a.transactions = b.transactions

namespace Agrees

variable {a b c : Block}

theorem rfl : a.Agrees a :=
  ⟨.refl _, .refl _, .refl _⟩

theorem trans (h : a.Agrees b) (h' : b.Agrees c) : a.Agrees c :=
  ⟨h.header.trans h'.header, h.height.trans h'.height, h.transactions.trans h'.transactions⟩

theorem id (h : a.Agrees b) : a.id = b.id :=
  congrArg Header.id h.header

theorem check (h : a.Agrees b) (view : LedgerView) : a.check view = b.check view := by
  simp only [Block.check, spent, h.header, h.transactions]

theorem isValid (h : a.Agrees b) (view : LedgerView) : a.isValid view = b.isValid view := by
  simp only [Block.isValid, h.check]

end Agrees

theorem withoutVotes_agrees (b : Block) : b.withoutVotes.Agrees b :=
  ⟨rfl, rfl, rfl⟩

theorem collect_agrees (b : Block) (v : CollectedVote) : (b.collect v).Agrees b :=
  ⟨rfl, rfl, rfl⟩

theorem signBy_agrees (b : Block) (key : PrivateKey) (signer : ValidatorId)
    (nextKey : Option PublicKey) : (b.signBy key signer nextKey).Agrees b :=
  ⟨rfl, rfl, rfl⟩

theorem isValid_iff {b : Block} {view : LedgerView} : b.isValid view ↔ b.check view = .ok () := by
  cases h : b.check view <;> simp [isValid, h, Except.isOk, Except.toBool]

-- A block without transactions passes everywhere.
theorem check_finalize_start (height : Height) (parent : Digest) (view : LedgerView) :
    (Draft.start height parent).finalize.check view = .ok () := by
  simp [check, Draft.finalize, Draft.start, checkTransactions, spent, inputsOf, firstRepeat]

-- A first block without transactions.
def blank : Block :=
  (Draft.start ⟨1⟩ .zero).finalize

theorem check_blank (view : LedgerView) : blank.check view = .ok () :=
  check_finalize_start ..

end QuorumLedger.Block
