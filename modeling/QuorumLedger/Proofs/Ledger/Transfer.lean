import Mathlib.Logic.Function.Basic
import QuorumLedger.Ledger.Transaction

namespace QuorumLedger

structure Transfer where
  id : TxId
  inputs : List OutputRef
  outputs : List Output
  deriving DecidableEq

def Transaction.transfer (t : Transaction) : Transfer :=
  ⟨t.id, t.inputs, t.outputs⟩

namespace Transfer

def bytes (m : Transfer) : Bytes :=
  (Transaction.unsigned m.id ⟨0⟩ m.inputs m.outputs).digestBytes

@[simp]
theorem bytes_transfer (t : Transaction) : t.transfer.bytes = t.digestBytes :=
  rfl

-- The counts are written in full.
structure Fits (m : Transfer) : Prop where
  inputs : m.inputs.length < UInt32.size
  outputs : m.outputs.length < UInt32.size

theorem length_inputBytes (r : OutputRef) : (Transaction.inputBytes r).length = 8 := by
  simp [Transaction.inputBytes]

theorem length_outputBytes (o : Output) : (Transaction.outputBytes o).length = 12 := by
  simp [Transaction.outputBytes]

theorem inputBytes_injective : Function.Injective Transaction.inputBytes := by
  rintro ⟨⟨tx⟩, index⟩ ⟨⟨tx'⟩, index'⟩ h
  obtain ⟨htx, hindex⟩ := List.append_inj h (by simp)
  rw [show tx = tx' from Bytes.littleEndian_inj32 htx,
    show index = index' from Bytes.littleEndian_inj32 hindex]

theorem outputBytes_injective : Function.Injective Transaction.outputBytes := by
  rintro ⟨value, ⟨receiver⟩⟩ ⟨value', ⟨receiver'⟩⟩ h
  obtain ⟨hvalue, hreceiver⟩ := List.append_inj h (by simp)
  rw [show value = value' from Bytes.littleEndian_inj64 hvalue,
    show receiver = receiver' from Bytes.littleEndian_inj32 hreceiver]

-- The fields come back in the order in which they are written, each list by its count.
theorem bytes_inj {m m' : Transfer} (hm : m.Fits) (hm' : m'.Fits) (h : m.bytes = m'.bytes) :
    m = m' := by
  obtain ⟨⟨id⟩, inputs, outputs⟩ := m
  obtain ⟨⟨id'⟩, inputs', outputs'⟩ := m'
  obtain ⟨hid, h⟩ := List.append_inj h (by simp)
  obtain ⟨hcount, h⟩ := List.append_inj h (by simp)
  have hcount := Bytes.littleEndian_inj hm.inputs hm'.inputs hcount
  obtain ⟨hinputs, h⟩ := List.append_inj h (by
    rw [Bytes.length_flatMap length_inputBytes, Bytes.length_flatMap length_inputBytes]
    exact congrArg (8 * ·) hcount)
  obtain ⟨hcount', houtputs⟩ := List.append_inj h (by simp)
  have hcount' := Bytes.littleEndian_inj hm.outputs hm'.outputs hcount'
  have hid : id = id' := Bytes.littleEndian_inj32 hid
  have hinputs := Bytes.flatMap_inj length_inputBytes inputBytes_injective hcount hinputs
  have houtputs := Bytes.flatMap_inj length_outputBytes outputBytes_injective hcount' houtputs
  exact congr (congr (congrArg (fun i => Transfer.mk ⟨i⟩) hid) hinputs) houtputs

end Transfer

namespace Transaction

-- The sender, the key and the signature make no difference, everything else does.
theorem digestBytes_eq_iff {t t' : Transaction} (h : t.transfer.Fits) (h' : t'.transfer.Fits) :
    t.digestBytes = t'.digestBytes ↔
      t.id = t'.id ∧ t.inputs = t'.inputs ∧ t.outputs = t'.outputs := by
  rw [← Transfer.bytes_transfer, ← Transfer.bytes_transfer]
  constructor
  · intro hbytes
    have hsame : t.transfer = t'.transfer := Transfer.bytes_inj h h' hbytes
    exact ⟨congrArg Transfer.id hsame, congrArg Transfer.inputs hsame,
      congrArg Transfer.outputs hsame⟩
  · rintro ⟨hid, hinputs, houtputs⟩
    rw [transfer, transfer, hid, hinputs, houtputs]

-- Two payments, the same payments in another order, and the same from another sender.
def paying : Transaction :=
  .unsigned ⟨7⟩ ⟨1⟩ [⟨⟨3⟩, 0⟩, ⟨⟨3⟩, 1⟩] [⟨40, ⟨2⟩⟩, ⟨60, ⟨1⟩⟩]

def payingBackwards : Transaction :=
  { paying with outputs := paying.outputs.reverse }

def payingForOther : Transaction :=
  { paying with sender := ⟨2⟩ }

theorem digestBytes_eq_iff_paying :
    paying.transfer.Fits ∧ payingBackwards.transfer.Fits ∧ payingForOther.transfer.Fits ∧
      paying.digestBytes ≠ payingBackwards.digestBytes ∧
      paying.digestBytes = payingForOther.digestBytes := by
  have hpaying : paying.transfer.Fits := ⟨by decide, by decide⟩
  have hbackwards : payingBackwards.transfer.Fits := ⟨by decide, by decide⟩
  have hother : payingForOther.transfer.Fits := ⟨by decide, by decide⟩
  refine ⟨hpaying, hbackwards, hother, fun hbytes => ?_,
    (digestBytes_eq_iff hpaying hother).mpr ⟨rfl, rfl, rfl⟩⟩
  obtain ⟨-, -, houtputs⟩ := (digestBytes_eq_iff hpaying hbackwards).mp hbytes
  exact absurd houtputs (by decide)

end Transaction

end QuorumLedger
