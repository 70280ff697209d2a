/- GID: Aggregate/AggregateTransactionsHash
   anchors: [plugins/txes/aggregate, src/bitxorcore/model, src/bitxorcore/utils]
   digest: What the transactions hash of an aggregate determines about its transactions. -/

import BitxorCore.Crypto.MerkleHashBuilder

set_option autoImplicit false
set_option relaxedAutoImplicit false

namespace BitxorCore.Model
open Crypto

/-- What rounds a size up to the next multiple of an alignment. -/
def getPaddingSize (size alignment : Nat) : Nat :=
  if size % alignment = 0 then 0 else alignment - size % alignment

/-- The 32-bit number at an offset; the first byte is the lowest. -/
def readUInt32 (memory : List Byte) (offset : Nat) : Nat :=
  ((memory.drop offset).take 4).foldr (fun byte rest => byte.toNat + 256 * rest) 0

/-- A container over the entities in the first `size` bytes of a memory. `entitySize` is the size
of the fixed part of an entity. -/
structure ContiguousEntityContainer where
  memory : List Byte
  size : Nat
  entitySize : Nat
  entitySize_pos : 0 < entitySize

namespace ContiguousEntityContainer

variable (container : ContiguousEntityContainer)

/-- The field `Size` of the entity at a position. -/
def sizeAt (position : Nat) : Nat := readUInt32 container.memory position

def entityAt (position : Nat) : List Byte :=
  (container.memory.drop position).take (container.sizeAt position)

def isEntityInBuffer (position : Nat) : Bool :=
  decide (position ≤ container.size) && decide (position + 4 ≤ container.size) &&
    decide (position + container.sizeAt position ≤ container.size)

def isEnd (position : Nat) : Bool := container.size == position

def advance (position numBytes : Nat) : Nat :=
  let next := position + numBytes
  if container.size ≠ next then next + getPaddingSize numBytes 8 else next

/-- The condition of `checkError` at a position that is not the end. -/
def isEntity (position : Nat) : Bool :=
  container.isEntityInBuffer position && decide (container.entitySize ≤ container.sizeAt position)

variable {container} in
private theorem le_advance (position numBytes : Nat) :
    position + numBytes ≤ container.advance position numBytes := by
  unfold advance
  dsimp only
  split <;> omega

/-- The positions that are visited from a position on, and whether an error ended the
iteration. -/
def visit (position : Nat) : List Nat × Bool :=
  if container.isEnd position then ([], false)
  else if container.isEntity position then
    let rest := visit (container.advance position (container.sizeAt position))
    (position :: rest.1, rest.2)
  else ([], true)
termination_by container.size - position
decreasing_by
  rename_i entity
  have ahead := container.le_advance position (container.sizeAt position)
  have positive := container.entitySize_pos
  simp only [isEntity, isEntityInBuffer, Bool.and_eq_true, decide_eq_true_eq] at entity
  omega

private theorem visit_end : container.visit container.size = ([], false) := by
  rw [visit, isEnd, beq_self_eq_true, if_pos rfl]

end ContiguousEntityContainer

inductive EntityContainerErrorPolicy
  | throw
  | suppress
  deriving DecidableEq

/-- The positions of all entities; with the policy `throw` an error leaves nothing. -/
def ContiguousEntityContainer.positions (container : ContiguousEntityContainer) :
    EntityContainerErrorPolicy → Option (List Nat)
  | .throw => if (container.visit 0).2 then none else some (container.visit 0).1
  | .suppress => some (container.visit 0).1

end BitxorCore.Model

namespace BitxorCore.Aggregate
open Library Crypto Model List HashTree ContiguousEntityContainer

/-- `EmbeddedTransaction::Header_Size`: size, reserved bytes and the key of the signer. -/
def embeddedHeaderSize : Nat := 4 + 7 + 32

/-- `sizeof(EmbeddedTransaction)`: the header, then version, network and type. -/
def embeddedTransactionSize : Nat := embeddedHeaderSize + 1 + 2 + 2

/-- `VerifiableEntity::Header_Size`: size, reserved bytes, signature and the key of the signer. -/
def verifiableHeaderSize : Nat := 4 + 7 + 64 + 32

/-- `sizeof(Transaction)`: the header, then version, network, type, fee and deadline. -/
def transactionSize : Nat := verifiableHeaderSize + 1 + 2 + 2 + 8 + 8

/-- `AggregateTransaction::Footer_Size`: the payload size and padding. -/
def footerSize : Nat := 2 * 4

/-- `sizeof(AggregateTransaction)`. -/
def aggregateTransactionSize : Nat := transactionSize + 32 + footerSize

structure AggregateTransaction where
  bytes : List Byte

namespace AggregateTransaction

variable (aggregate : AggregateTransaction)

def size : Nat := readUInt32 aggregate.bytes 0

def transactionsHash : HashBytes :=
  ⟨(range 32).map fun i => aggregate.bytes.getD (transactionSize + i) 0, by
    rw [length_map, length_range]⟩

def payloadSize : Nat := readUInt32 aggregate.bytes (transactionSize + 32)

def signature : List Byte := (aggregate.bytes.drop 8).take 64

def signerPublicKey : List Byte := (aggregate.bytes.drop 72).take 32

/-- The bytes that are signed: from the version up to the transactions hash. -/
def dataBuffer : List Byte :=
  (aggregate.bytes.drop verifiableHeaderSize).take
    (aggregateTransactionSize - verifiableHeaderSize - footerSize)

def calculateHash (sha3_256 : List Byte → HashBytes) (generationHashSeed : HashBytes) : HashBytes :=
  sha3_256 (aggregate.signature ++ aggregate.signerPublicKey ++ generationHashSeed.val ++
    aggregate.dataBuffer)

/-- The memory from the first embedded transaction on, if there is one. -/
def transactionsPtr : Option (List Byte) :=
  if aggregate.size ≤ aggregateTransactionSize ∨ aggregate.payloadSize = 0 then none
  else some (aggregate.bytes.drop aggregateTransactionSize)

def container (memory : List Byte) : ContiguousEntityContainer where
  memory := memory
  size := aggregate.payloadSize
  entitySize := embeddedTransactionSize
  entitySize_pos := by decide

/-- The embedded transactions; an error in the payload throws. -/
def transactions : Option (List (List Byte)) :=
  match aggregate.transactionsPtr with
  | none => some []
  | some memory =>
    ((aggregate.container memory).positions .throw).map
      (map (aggregate.container memory).entityAt)

end AggregateTransaction

/-- Notification of the embedded transactions: their hash, their number and where they lie. -/
structure AggregateEmbeddedTransactionsNotification where
  transactionsHash : HashBytes
  transactionsCount : Nat
  transactionsPtr : Option (List Byte)

inductive ValidationResult
  | success
  | failureAggregateTransactionsHashMismatch
  deriving DecidableEq

def publishEmbeddedTransactions (aggregate : AggregateTransaction) :
    Option AggregateEmbeddedTransactionsNotification :=
  aggregate.transactions.map fun transactions =>
    ⟨aggregate.transactionsHash, transactions.length, aggregate.transactionsPtr⟩

def advanceNext (memory : List Byte) (position : Nat) : Nat :=
  position + readUInt32 memory position + getPaddingSize (readUInt32 memory position) 8

def extractDataBuffer (memory : List Byte) (position : Nat) : List Byte :=
  (memory.drop (position + embeddedHeaderSize)).take
    (readUInt32 memory position - embeddedHeaderSize)

section Validator

variable (sha3_256 : List Byte → HashBytes)

def updateTransactionHashes (memory : List Byte) : Nat → Nat → MerkleHashBuilder → MerkleHashBuilder
  | 0, _, builder => builder
  | count + 1, position, builder =>
    updateTransactionHashes memory count (advanceNext memory position)
      (builder.update (sha3_256 (extractDataBuffer memory position)))

variable (notice : AggregateEmbeddedTransactionsNotification)

def calculateExpectedTransactionsHash : HashBytes :=
  (updateTransactionHashes sha3_256 (notice.transactionsPtr.getD [])
    notice.transactionsCount 0 .empty).final sha3_256

def aggregateTransactionsHashValidator : ValidationResult :=
  if calculateExpectedTransactionsHash sha3_256 notice = notice.transactionsHash then
    .success
  else .failureAggregateTransactionsHashMismatch

def PassesTransactionsHash (aggregate : AggregateTransaction) : Prop :=
  (publishEmbeddedTransactions aggregate).map (aggregateTransactionsHashValidator sha3_256) =
    some .success

instance (aggregate : AggregateTransaction) :
    Decidable (PassesTransactionsHash sha3_256 aggregate) :=
  inferInstanceAs (Decidable (_ = some ValidationResult.success))

end Validator

/-- The part of an embedded transaction that is hashed, from the version on. -/
def hashedPart (tx : List Byte) : List Byte := tx.drop embeddedHeaderSize

/-- Everything that is hashed for a list of embedded transactions. -/
def hashedInputs (sha3_256 : List Byte → HashBytes) (transactions : List (List Byte)) :
    List (List Byte) :=
  match ofList (transactions.map hashedPart) with
  | none => []
  | some tree => tree.inputs sha3_256 HashBytes.pair

/-- What is hashed for the inner nodes of the tree over embedded transactions. -/
def nodeInputs (sha3_256 : List Byte → HashBytes) (transactions : List (List Byte)) :
    List (List Byte) :=
  match ofList (transactions.map hashedPart) with
  | none => []
  | some tree => tree.pairs sha3_256 HashBytes.pair

def unhashedPart (tx : List Byte) : List Byte := tx.take embeddedHeaderSize

section Reading

variable {sha3_256 : List Byte → HashBytes} {container : ContiguousEntityContainer} (position : Nat)

private theorem extractDataBuffer_eq :
    extractDataBuffer container.memory position = hashedPart (container.entityAt position) := by
  rw [hashedPart, entityAt, drop_take, drop_drop]
  rfl

/-- The validator's walk by `AdvanceNext` meets the transactions of the container: only after the
last one it may go on to another position. -/
private theorem updateTransactionHashes_visit (builder : MerkleHashBuilder)
    (complete : (container.visit position).2 = false) :
    updateTransactionHashes sha3_256 container.memory (container.visit position).1.length position
        builder =
      ⟨builder.hashes ++ (container.visit position).1.map
        (sha3_256 ∘ hashedPart ∘ container.entityAt)⟩ := by
  fun_induction container.visit position generalizing builder with
  | case1 position atEnd => simp [updateTransactionHashes]
  | case2 position notEnd entity rest ih =>
    have next : rest.1 = [] ∨ advanceNext container.memory position =
        container.advance position (container.sizeAt position) := by
      by_cases last : container.size = position + container.sizeAt position
      · left
        have atEnd : container.advance position (container.sizeAt position) = container.size := by
          rw [advance, if_neg (not_not.mpr last), last]
        simp only [rest, atEnd, container.visit_end]
      · right
        rw [advance, if_pos last]
        rfl
    rw [length_cons, updateTransactionHashes, map_cons]
    rcases next with none | next
    · simp only [none, length_nil, updateTransactionHashes, map_nil,
        MerkleHashBuilder.update, extractDataBuffer_eq, Function.comp_apply]
    · rw [next, ih _ complete, MerkleHashBuilder.update, extractDataBuffer_eq, append_assoc]
      rfl
  | case3 position notEnd noEntity => cases complete

variable {aggregate : AggregateTransaction} {transactions : List (List Byte)}

private theorem calculateExpectedTransactionsHash_eq
    (read : aggregate.transactions = some transactions) (transactionsHash : HashBytes) :
    calculateExpectedTransactionsHash sha3_256
        ⟨transactionsHash, transactions.length, aggregate.transactionsPtr⟩ =
      ((ofList (transactions.map hashedPart)).map
        (hashOf sha3_256 HashBytes.pair)).getD .zero := by
  unfold hashOf
  rw [map_fold_ofList, calculateExpectedTransactionsHash, MerkleHashBuilder.final_eq, map_map]
  congr 2
  unfold AggregateTransaction.transactions at read
  cases pointer : aggregate.transactionsPtr with
  | none =>
    rw [pointer] at read
    cases read
    rfl
  | some memory =>
    rw [pointer] at read
    obtain ⟨positions, visited, rfl⟩ := Option.map_eq_some_iff.mp read
    rw [ContiguousEntityContainer.positions] at visited
    split at visited
    · cases visited
    · rename_i complete
      cases visited
      have walked := @updateTransactionHashes_visit sha3_256 (aggregate.container memory) 0 .empty
        (eq_false_of_ne_true complete)
      rw [length_map, map_map]
      exact congrArg MerkleHashBuilder.hashes walked

private theorem passes_iff (read : aggregate.transactions = some transactions) :
    PassesTransactionsHash sha3_256 aggregate ↔ ((ofList (transactions.map hashedPart)).map
        (hashOf sha3_256 HashBytes.pair)).getD .zero = aggregate.transactionsHash := by
  rw [PassesTransactionsHash, publishEmbeddedTransactions, read]
  simp [aggregateTransactionsHashValidator, calculateExpectedTransactionsHash_eq read]

end Reading

private theorem eq_of_parts_eq {transactions others : List (List Byte)}
    (unhashed : transactions.map unhashedPart = others.map unhashedPart)
    (hashed : transactions.map hashedPart = others.map hashedPart) : transactions = others := by
  have together : transactions.map (fun tx => (unhashedPart tx, hashedPart tx)) =
      others.map fun tx => (unhashedPart tx, hashedPart tx) := by
    rw [← zip_map', ← zip_map', unhashed, hashed]
  refine map_injective_iff.mpr (fun tx tx' parts => ?_) together
  obtain ⟨heads, tails⟩ := Prod.mk.inj parts
  rw [← take_append_drop embeddedHeaderSize tx, ← take_append_drop embeddedHeaderSize tx']
  exact congr (congrArg _ heads) tails

/-- Without collisions, two aggregates with one transactions hash have the same transactions exactly
if they have as many, with the same unhashed parts: size, reserved bytes and signer. Their merkle
trees are the same anyway, unless a transaction of one reads as an inner node of the other or one
is empty. -/
theorem embeddedTransactions_eq_iff {sha3_256 : List Byte → HashBytes}
    {aggregate other : AggregateTransaction} {transactions others : List (List Byte)}
    (read : aggregate.transactions = some transactions)
    (readOther : other.transactions = some others)
    (passes : PassesTransactionsHash sha3_256 aggregate)
    (passesOther : PassesTransactionsHash sha3_256 other) (free : HashTree.CollisionFree sha3_256
      (hashedInputs sha3_256 transactions ++ hashedInputs sha3_256 others))
    (same : aggregate.transactionsHash = other.transactionsHash) :
    (transactions = others ↔ transactions.length = others.length ∧
      transactions.map unhashedPart = others.map unhashedPart) ∧
    (ofList (transactions.map hashedPart) = ofList (others.map hashedPart) ∨
      (∃ tx ∈ transactions, hashedPart tx ∈ nodeInputs sha3_256 others) ∨
      (∃ tx ∈ others, hashedPart tx ∈ nodeInputs sha3_256 transactions) ∨
      (transactions = [] ∨ others = []) ∧ aggregate.transactionsHash = .zero) := by
  have hashed := (passes_iff read).mp passes
  have hashedOther := (passes_iff readOther).mp passesOther
  unfold hashedInputs at free
  unfold nodeInputs
  cases built : ofList (transactions.map hashedPart) with
  | none =>
    obtain rfl : transactions = [] := map_eq_nil_iff.mp (ofList_eq_none.mp built)
    rw [built] at hashed
    refine ⟨⟨?_, fun ⟨long, _⟩ => ?_⟩, .inr (.inr (.inr ⟨.inl rfl, hashed.symm⟩))⟩
    · rintro rfl
      exact ⟨rfl, rfl⟩
    · exact (eq_nil_of_length_eq_zero long.symm).symm
  | some tree =>
    cases builtOther : ofList (others.map hashedPart) with
    | none =>
      obtain rfl : others = [] := map_eq_nil_iff.mp (ofList_eq_none.mp builtOther)
      rw [builtOther] at hashedOther
      refine ⟨⟨?_, fun ⟨long, _⟩ => eq_nil_of_length_eq_zero long⟩,
        .inr (.inr (.inr ⟨.inr rfl, same.trans hashedOther.symm⟩))⟩
      rintro rfl
      exact ⟨rfl, rfl⟩
    | some treeOther =>
      rw [built, builtOther] at free
      rw [built] at hashed
      rw [builtOther, ← same, ← hashed] at hashedOther
      have equal := fun told => eq_of_hashOf_eq free
        (fun _ => mem_append_left _) (fun _ => mem_append_right _) (Eq.symm hashedOther)
        HashBytes.pair_injective told
      refine ⟨⟨?_, fun ⟨long, unhashed⟩ => eq_of_parts_eq unhashed ?_⟩, ?_⟩
      · rintro rfl
        exact ⟨rfl, rfl⟩
      · have lengths : (transactions.map hashedPart).length = (others.map hashedPart).length := by
          rw [length_map, length_map, long]
        have shapes := shape_ofList lengths
        rw [built, builtOther] at shapes
        refine ofList_injective lengths ?_
        rw [built, builtOther, equal (.inl (Option.some.inj shapes))]
      · dsimp only
        by_cases reads : ∃ tx ∈ transactions, hashedPart tx ∈ treeOther.pairs sha3_256 HashBytes.pair
        · exact .inr (.inl reads)
        by_cases readsOther : ∃ tx ∈ others, hashedPart tx ∈ tree.pairs sha3_256 HashBytes.pair
        · exact .inr (.inr (.inl readsOther))
        left
        rw [equal (.inr ⟨fun msg mem inside => ?_, fun msg mem inside => ?_⟩)]
        · obtain ⟨tx, isTx, rfl⟩ := mem_map.mp (mem_of_mem_leaves built msg mem)
          exact reads ⟨tx, isTx, inside⟩
        · obtain ⟨tx, isTx, rfl⟩ := mem_map.mp (mem_of_mem_leaves builtOther msg mem)
          exact readsOther ⟨tx, isTx, inside⟩

section Example

/-- A hash function for the examples: a checksum and the length. -/
def exampleSha3 (msg : List Byte) : HashBytes :=
  let checksum := msg.foldl (fun sum byte => 3 * sum + byte.toNat) 0
  ⟨BitVec.ofNat 8 checksum :: BitVec.ofNat 8 msg.length :: replicate 30 0, rfl⟩

def littleEndian (value : Nat) : List Byte :=
  [BitVec.ofNat 8 value, BitVec.ofNat 8 (value / 256), 0, 0]

def exampleTransaction (signer type : Byte) : List Byte :=
  littleEndian 48 ++ replicate 4 0 ++ replicate 32 signer ++ [0, 0, 0, 1, 0x24, 0x99, type, 0x41]

def exampleAggregate (transactions : List (List Byte)) : AggregateTransaction :=
  let payload := transactions.flatten
  let builder : MerkleHashBuilder := ⟨transactions.map fun tx =>
    exampleSha3 (hashedPart tx)⟩
  ⟨littleEndian (aggregateTransactionSize + payload.length) ++
    replicate (transactionSize - 4) 0 ++ (builder.final exampleSha3).val ++
    littleEndian payload.length ++ replicate 4 0 ++ payload⟩

def exampleTransactions : List (List Byte) :=
  [exampleTransaction 1 7, exampleTransaction 2 8, exampleTransaction 3 9]

def exampleResigned : List (List Byte) :=
  [exampleTransaction 2 7, exampleTransaction 1 8, exampleTransaction 3 9]

def exampleRepeated : List (List Byte) := exampleTransactions ++ [exampleTransaction 3 9]

theorem embeddedTransactions_eq_iff_exampleResigned :
    exampleTransactions.map unhashedPart ≠ exampleResigned.map unhashedPart ∧
      (exampleTransactions = exampleResigned ↔
        exampleTransactions.length = exampleResigned.length ∧
          exampleTransactions.map unhashedPart = exampleResigned.map unhashedPart) :=
  ⟨by decide +kernel, (@embeddedTransactions_eq_iff exampleSha3
    (exampleAggregate exampleTransactions) (exampleAggregate exampleResigned) exampleTransactions
    exampleResigned (by decide +kernel) (by decide +kernel) (by decide +kernel) (by decide +kernel)
    (by decide +kernel) (by decide +kernel)).1⟩

/-- A transaction whose hashed part is an inner node of the tree over the first two. -/
def exampleNode : List Byte :=
  littleEndian 107 ++ replicate 4 0 ++ replicate 32 1 ++ [0, 0, 0] ++
    HashBytes.pair (exampleSha3 (hashedPart (exampleTransaction 1 7)))
      (exampleSha3 (hashedPart (exampleTransaction 2 8)))

/-- Other transactions can take the place of those of an aggregate without any collision: the hash
is accepted and all that is signed stays the same, the data of the aggregate for its signer and the
hash of the aggregate for the cosignatories. -/
structure AlteredBelowSignatures (transactions altered : List (List Byte)) : Prop where
  accepted : (exampleAggregate transactions).transactions = some transactions ∧
    (exampleAggregate altered).transactions = some altered ∧
    PassesTransactionsHash exampleSha3 (exampleAggregate transactions) ∧
    PassesTransactionsHash exampleSha3 (exampleAggregate altered) ∧
    HashTree.CollisionFree exampleSha3
      (hashedInputs exampleSha3 transactions ++ hashedInputs exampleSha3 altered) ∧
    (exampleAggregate transactions).transactionsHash =
      (exampleAggregate altered).transactionsHash ∧
    (exampleAggregate transactions).dataBuffer = (exampleAggregate altered).dataBuffer ∧
    transactions ≠ altered
  signed : ∀ seed, (exampleAggregate transactions).calculateHash exampleSha3 seed =
    (exampleAggregate altered).calculateHash exampleSha3 seed

private theorem calculateHash_eq_of_signed {first second : AggregateTransaction}
    (same : first.signature = second.signature ∧
      first.signerPublicKey = second.signerPublicKey ∧ first.dataBuffer = second.dataBuffer)
    (seed : HashBytes) :
    first.calculateHash exampleSha3 seed = second.calculateHash exampleSha3 seed := by
  obtain ⟨signatures, keys, data⟩ := same
  rw [AggregateTransaction.calculateHash, signatures, keys, data]
  rfl

/-- Transactions are exchanged between signers, the last one is repeated, or an inner node takes the
place of two of them. -/
theorem embedded_transactions_altered_below_signatures :
    AlteredBelowSignatures exampleTransactions exampleResigned ∧
      AlteredBelowSignatures exampleTransactions exampleRepeated ∧
      AlteredBelowSignatures (exampleTransactions.take 2) [exampleNode] :=
  ⟨⟨by decide +kernel, calculateHash_eq_of_signed (by decide +kernel)⟩,
    ⟨by decide +kernel, calculateHash_eq_of_signed (by decide +kernel)⟩,
    ⟨by decide +kernel, calculateHash_eq_of_signed (by decide +kernel)⟩⟩

end Example

end BitxorCore.Aggregate
