import Mathlib

/-!
# Transactions as the builder fills them in

The chain builder treats a `bitcoin.Transaction` as a record it fills in place: `addInput`,
`addOutput`, an assignment to an output's value, a `pop` or `splice` of the output list, and the
signer's assignments to an input's script and witness. Here a transaction is that record as a
value, and each mutation of the source is a function returning the updated record; `clone()`
is the identity.

Transaction hashes are values of an abstract type `η`. The library computes them from the
serialisation without witnesses; the builder only stores them in the inputs it creates and never
looks inside one.
-/

namespace ChainInscription

/-- A `Buffer`. -/
abbrev Bytes := List UInt8

/-- `xs.slice(start, stop)` of an array or a buffer, for indices within bounds or past the end. -/
def slice {α : Type} (xs : List α) (start stop : ℕ) : List α := (xs.drop start).take (stop - start)

@[simp] theorem length_slice {α : Type} (xs : List α) (start stop : ℕ) :
    (slice xs start stop).length = min (stop - start) (xs.length - start) := by
  simp [slice]

/-- An input of `bitcoin.Transaction`: the spent outpoint `(hash, index)`, the input script,
the sequence number and the witness stack. -/
structure Input (η : Type) where
  hash : η
  index : ℕ
  script : Bytes
  sequence : ℕ
  witness : List Bytes
  deriving DecidableEq, Repr

/-- An output of `bitcoin.Transaction`. Values are JavaScript numbers, so they may be set
negative; the builder's checks are what keep them non-negative. -/
structure Output where
  script : Bytes
  value : ℤ
  deriving DecidableEq, Repr

/-- The fields of `bitcoin.Transaction` the builder reads or writes. -/
structure Transaction (η : Type) where
  version : ℕ
  locktime : ℕ
  ins : List (Input η)
  outs : List Output
  deriving DecidableEq, Repr

namespace Transaction
variable {η : Type}

/-- `new bitcoin.Transaction()`. -/
def empty : Transaction η := ⟨1, 0, [], []⟩

/-- `tx.version = version`. -/
def setVersion (tx : Transaction η) (version : ℕ) : Transaction η := { tx with version := version }

/-- `tx.addInput(hash, index, sequence)`: a new input has an empty script and witness. -/
def addInput (tx : Transaction η) (hash : η) (index sequence : ℕ) : Transaction η :=
  { tx with ins := tx.ins ++ [⟨hash, index, [], sequence, []⟩] }

/-- `tx.addOutput(script, value)`. -/
def addOutput (tx : Transaction η) (script : Bytes) (value : ℤ) : Transaction η :=
  { tx with outs := tx.outs ++ [⟨script, value⟩] }

/-- `tx.outs[i].value = value`. -/
def setOutputValue (tx : Transaction η) (i : ℕ) (value : ℤ) : Transaction η :=
  { tx with outs := tx.outs.modify (fun o => { o with value := value }) i }

/-- `tx.outs.pop()`. -/
def popOutput (tx : Transaction η) : Transaction η := { tx with outs := tx.outs.dropLast }

/-- `tx.outs.splice(i, 1)`. -/
def spliceOutput (tx : Transaction η) (i : ℕ) : Transaction η :=
  { tx with outs := tx.outs.eraseIdx i }

/-- `tx.ins[i].witness = witness`. -/
def setWitness (tx : Transaction η) (i : ℕ) (witness : List Bytes) : Transaction η :=
  { tx with ins := tx.ins.modify (fun x => { x with witness := witness }) i }

/-- `tx.ins[i].script = script`. -/
def setScript (tx : Transaction η) (i : ℕ) (script : Bytes) : Transaction η :=
  { tx with ins := tx.ins.modify (fun x => { x with script := script }) i }

/-- The transaction with every witness emptied: the part the transaction hash commits to. -/
def stripWitness (tx : Transaction η) : Transaction η :=
  { tx with ins := tx.ins.map fun x => { x with witness := [] } }

/-- The transaction with every input script and witness emptied: for a transaction built with
empty input scripts, the transaction as it was before any of its inputs was signed. -/
def unsigned (tx : Transaction η) : Transaction η :=
  { tx with ins := tx.ins.map fun x => { x with script := [], witness := [] } }

/-- The outpoints `(hash, index)` a transaction spends, in input order. -/
def outpoints (tx : Transaction η) : List (η × ℕ) := tx.ins.map fun x => (x.hash, x.index)

/-- The sum of the output values. -/
def outValue (tx : Transaction η) : ℤ := (tx.outs.map Output.value).sum

/-- What a size computation sees of a transaction: everything but the output values, with each
witness element replaced by its length. -/
def shape (tx : Transaction η) :
    ℕ × ℕ × List (η × ℕ × Bytes × ℕ × List ℕ) × List Bytes :=
  (tx.version, tx.locktime,
    tx.ins.map (fun x => (x.hash, x.index, x.script, x.sequence, x.witness.map List.length)),
    tx.outs.map Output.script)

/-- The shape without the transactions the inputs spend: what a size computation sees once the
amounts are set aside, since a transaction id has a fixed size and the id of a transaction built
in a chain is a hash over the amounts before it. -/
def frame (tx : Transaction η) : ℕ × ℕ × List (ℕ × Bytes × ℕ × List ℕ) × List Bytes :=
  (tx.version, tx.locktime,
    tx.ins.map (fun x => (x.index, x.script, x.sequence, x.witness.map List.length)),
    tx.outs.map Output.script)

@[simp] theorem setVersion_ins (tx : Transaction η) (v : ℕ) : (tx.setVersion v).ins = tx.ins := rfl
@[simp] theorem setVersion_outs (tx : Transaction η) (v : ℕ) :
    (tx.setVersion v).outs = tx.outs := rfl
@[simp] theorem addInput_ins (tx : Transaction η) (h : η) (i s : ℕ) :
    (tx.addInput h i s).ins = tx.ins ++ [⟨h, i, [], s, []⟩] := rfl
@[simp] theorem addInput_outs (tx : Transaction η) (h : η) (i s : ℕ) :
    (tx.addInput h i s).outs = tx.outs := rfl
@[simp] theorem addOutput_ins (tx : Transaction η) (b : Bytes) (v : ℤ) :
    (tx.addOutput b v).ins = tx.ins := rfl
@[simp] theorem addOutput_outs (tx : Transaction η) (b : Bytes) (v : ℤ) :
    (tx.addOutput b v).outs = tx.outs ++ [⟨b, v⟩] := rfl
@[simp] theorem setOutputValue_ins (tx : Transaction η) (i : ℕ) (v : ℤ) :
    (tx.setOutputValue i v).ins = tx.ins := rfl
@[simp] theorem popOutput_ins (tx : Transaction η) : tx.popOutput.ins = tx.ins := rfl
@[simp] theorem popOutput_outs (tx : Transaction η) : tx.popOutput.outs = tx.outs.dropLast := rfl
@[simp] theorem spliceOutput_ins (tx : Transaction η) (i : ℕ) : (tx.spliceOutput i).ins = tx.ins :=
  rfl
@[simp] theorem setWitness_outs (tx : Transaction η) (i : ℕ) (w : List Bytes) :
    (tx.setWitness i w).outs = tx.outs := rfl
@[simp] theorem setScript_outs (tx : Transaction η) (i : ℕ) (b : Bytes) :
    (tx.setScript i b).outs = tx.outs := rfl
@[simp] theorem setWitness_version (tx : Transaction η) (i : ℕ) (w : List Bytes) :
    (tx.setWitness i w).version = tx.version := rfl
@[simp] theorem setWitness_locktime (tx : Transaction η) (i : ℕ) (w : List Bytes) :
    (tx.setWitness i w).locktime = tx.locktime := rfl

/-- A second assignment to the witness of an input overrides the first. -/
@[simp] theorem setWitness_setWitness (tx : Transaction η) (i : ℕ) (w w' : List Bytes) :
    (tx.setWitness i w).setWitness i w' = tx.setWitness i w' := by
  simp only [setWitness, List.modify_modify_eq]
  rfl

theorem setOutputValue_setWitness (tx : Transaction η) (i j : ℕ) (w : List Bytes) (v : ℤ) :
    (tx.setWitness i w).setOutputValue j v = (tx.setOutputValue j v).setWitness i w := rfl

/-- Assigning a witness leaves the transaction hash's preimage alone. -/
@[simp] theorem stripWitness_setWitness (tx : Transaction η) (i : ℕ) (w : List Bytes) :
    (tx.setWitness i w).stripWitness = tx.stripWitness := by
  simp only [stripWitness, setWitness, Transaction.mk.injEq, and_true, true_and]
  induction tx.ins generalizing i with
  | nil => simp
  | cons x xs ih => cases i <;> simp [ih]

/-- Changing one input in a way that keeps a projection of it keeps that projection of every
input. -/
theorem map_modify_of_comp {α β : Type} (f : α → α) (g : α → β) (hfg : ∀ a, g (f a) = g a)
    (l : List α) (i : ℕ) : (l.modify f i).map g = l.map g := by
  induction l generalizing i with
  | nil => cases i <;> rfl
  | cons x xs ih => cases i <;> simp [hfg, ih]

@[simp] theorem unsigned_setWitness (tx : Transaction η) (i : ℕ) (w : List Bytes) :
    (tx.setWitness i w).unsigned = tx.unsigned := by
  simp only [unsigned, setWitness, Transaction.mk.injEq, and_true, true_and]
  exact map_modify_of_comp _ _ (fun _ => by rfl) _ _
@[simp] theorem unsigned_setScript (tx : Transaction η) (i : ℕ) (b : Bytes) :
    (tx.setScript i b).unsigned = tx.unsigned := by
  simp only [unsigned, setScript, Transaction.mk.injEq, and_true, true_and]
  exact map_modify_of_comp _ _ (fun _ => by rfl) _ _

/-- A transaction whose inputs have empty scripts is, unsigned, its witness-free part. -/
theorem unsigned_eq_stripWitness {tx : Transaction η} (h : ∀ x ∈ tx.ins, x.script = []) :
    tx.unsigned = tx.stripWitness := by
  simp only [unsigned, stripWitness, Transaction.mk.injEq, and_true, true_and]
  exact List.map_congr_left fun x hx => by rw [h x hx]

@[simp] theorem outpoints_setWitness (tx : Transaction η) (i : ℕ) (w : List Bytes) :
    (tx.setWitness i w).outpoints = tx.outpoints :=
  map_modify_of_comp _ _ (fun _ => by rfl) _ _
@[simp] theorem outpoints_setScript (tx : Transaction η) (i : ℕ) (b : Bytes) :
    (tx.setScript i b).outpoints = tx.outpoints :=
  map_modify_of_comp _ _ (fun _ => by rfl) _ _
@[simp] theorem outpoints_stripWitness (tx : Transaction η) :
    tx.stripWitness.outpoints = tx.outpoints := by
  simp [outpoints, stripWitness]
@[simp] theorem outpoints_unsigned (tx : Transaction η) : tx.unsigned.outpoints = tx.outpoints := by
  simp [outpoints, unsigned]
@[simp] theorem length_ins_setWitness (tx : Transaction η) (i : ℕ) (w : List Bytes) :
    (tx.setWitness i w).ins.length = tx.ins.length := by
  simp [setWitness]
@[simp] theorem length_ins_setScript (tx : Transaction η) (i : ℕ) (b : Bytes) :
    (tx.setScript i b).ins.length = tx.ins.length := by
  simp [setScript]

/-- Output values are not part of the shape. -/
@[simp] theorem shape_setOutputValue (tx : Transaction η) (i : ℕ) (v : ℤ) :
    (tx.setOutputValue i v).shape = tx.shape := by
  simp only [shape, setOutputValue, Prod.mk.injEq, true_and]
  exact map_modify_of_comp _ _ (fun _ => by rfl) _ _

/-- Two witnesses whose elements have the same lengths give the same shape. -/
theorem shape_setWitness_congr (tx : Transaction η) (i : ℕ) {w w' : List Bytes}
    (h : w.map List.length = w'.map List.length) :
    (tx.setWitness i w).shape = (tx.setWitness i w').shape := by
  simp only [shape, setWitness, Prod.mk.injEq, true_and, and_true]
  induction tx.ins generalizing i with
  | nil => cases i <;> rfl
  | cons x xs ih => cases i <;> simp [h, ih]

/-- Changing one element of two lists whose projections agree, in ways whose results' projections
agree, keeps the projections in agreement. -/
theorem map_modify_congr {α β : Type} {f f' : α → α} {g : α → β}
    (hf : ∀ a a', g a = g a' → g (f a) = g (f' a')) :
    ∀ {l l' : List α} (i : ℕ), l.map g = l'.map g → (l.modify f i).map g = (l'.modify f' i).map g
  | [], [], i, _ => by cases i <;> rfl
  | a :: l, a' :: l', i, h => by
    simp only [List.map_cons, List.cons.injEq] at h
    cases i with
    | zero => simp [hf a a' h.1, h.2]
    | succ i => simp [h.1, map_modify_congr hf i h.2]
  | [], _ :: _, _, h | _ :: _, [], _, h => by simp at h

@[simp] theorem frame_setOutputValue (tx : Transaction η) (i : ℕ) (v : ℤ) :
    (tx.setOutputValue i v).frame = tx.frame := by
  simp only [frame, setOutputValue, Prod.mk.injEq, true_and]
  exact map_modify_of_comp _ _ (fun _ => by rfl) _ _

theorem length_ins_of_frame {tx tx' : Transaction η} (h : tx.frame = tx'.frame) :
    tx.ins.length = tx'.ins.length := by
  simpa [frame] using congrArg (fun f => f.2.2.1.length) h

/-- Witnesses whose elements have the same lengths keep two frames equal. -/
theorem frame_setWitness_congr {tx tx' : Transaction η} (h : tx.frame = tx'.frame) (i : ℕ)
    {w w' : List Bytes} (hw : w.map List.length = w'.map List.length) :
    (tx.setWitness i w).frame = (tx'.setWitness i w').frame := by
  simp only [frame, setWitness, Prod.mk.injEq] at h ⊢
  exact ⟨h.1, h.2.1, map_modify_congr (fun _ _ ha => by simp_all) i h.2.2.1, h.2.2.2⟩

/-- The same input script keeps two frames equal. -/
theorem frame_setScript_congr {tx tx' : Transaction η} (h : tx.frame = tx'.frame) (i : ℕ)
    (b : Bytes) : (tx.setScript i b).frame = (tx'.setScript i b).frame := by
  simp only [frame, setScript, Prod.mk.injEq] at h ⊢
  exact ⟨h.1, h.2.1, map_modify_congr (fun _ _ ha => by simp_all) i h.2.2.1, h.2.2.2⟩

end Transaction

/-- An entry of one of two related lists has a related entry in the other. -/
theorem exists_getElem?_of_forall₂ {α β : Type} {R : α → β → Prop} {l : List α} {l' : List β}
    (h : List.Forall₂ R l l') {i : ℕ} {a : α} (ha : l[i]? = some a) :
    ∃ b, l'[i]? = some b ∧ R a b := by
  induction h generalizing i with
  | nil => simp at ha
  | cons hab _ ih =>
    cases i with
    | zero => simp only [List.getElem?_cons_zero, Option.some.injEq] at ha; subst ha; simpa
    | succ i => simpa using ih (by simpa using ha)

end ChainInscription
