import TypeConformance.Basic

/-! # Names

A name stands for a text of the pool. It packs the shard that holds the text and the text's
position there into 32 bits: four bits of shard above 28 bits of position. Every text is kept once,
in the shard that its first eight bytes select, and its name never changes. A shard has an index
beside its texts, by which a text is found again. A new pool holds the empty text and the words of
the language.
-/
namespace TypeConformance

structure Name where
  raw : UInt32
  deriving DecidableEq, Repr

namespace Name

def shardCount : Nat := 16

def maxPosition : Nat := 268435455

def ofParts (shard : Fin shardCount) (position : Nat) : Name :=
  ⟨UInt32.ofNat (shard * (maxPosition + 1) + position)⟩

def pack (shard position : Nat) : Except Fault Name :=
  if h : shard < shardCount then
    if maxPosition < position then .error .positionTooLarge else .ok (ofParts ⟨shard, h⟩ position)
  else .error .shardTooLarge

def empty : Name := ⟨0⟩

def position (n : Name) : Nat := n.raw.toNat % (maxPosition + 1)

def shard (n : Name) : Fin shardCount :=
  ⟨n.raw.toNat / (maxPosition + 1), by
    have := n.raw.toNat_lt
    simp only [maxPosition, shardCount]
    omega⟩

theorem toNat_ofParts (shard : Fin shardCount) {position : Nat} (h : position ≤ maxPosition) :
    (ofParts shard position).raw.toNat = shard * (maxPosition + 1) + position := by
  have hs := shard.isLt
  simp only [ofParts, maxPosition, shardCount] at *
  rw [UInt32.toNat_ofNat_of_lt']
  simp only [UInt32.size]
  omega

theorem shard_ofParts (shard : Fin shardCount) {position : Nat} (h : position ≤ maxPosition) :
    (ofParts shard position).shard = shard := by
  apply Fin.ext
  have hs := toNat_ofParts shard h
  simp only [Name.shard, hs]
  simp only [maxPosition] at *
  omega

theorem position_ofParts (shard : Fin shardCount) {position : Nat} (h : position ≤ maxPosition) :
    (ofParts shard position).position = position := by
  have hs := toNat_ofParts shard h
  simp only [Name.position, hs]
  simp only [maxPosition] at *
  omega

def inspect (n : Name) : String := s!"Name({n.shard.val}:{n.position})"

end Name

structure Shard where
  texts : List String := []
  /-- The position of each text, the latest first. -/
  index : List (String × Nat) := []
  deriving DecidableEq, Repr

def Shard.push (k : Shard) (s : String) : Shard where
  texts := k.texts ++ [s]
  index := (s, k.texts.length) :: k.index

structure Pool where
  shards : Vector Shard Name.shardCount
  count : Nat
  deriving DecidableEq, Repr

inductive PoolError where
  | shardFull (shard count : Nat)
  deriving DecidableEq, Repr

def PoolError.message : PoolError → String
  | shardFull shard count =>
    s!"interner shard {shard} exceeded capacity: {count} strings, max is {Name.maxPosition}"

namespace Pool

/-- Polynomial hash of the first eight bytes. -/
def hash (s : String) : UInt32 :=
  (s.toUTF8.data.toList.take 8).foldl (fun h byte => h * 31 + byte.toUInt32) 0

def shardOf (s : String) : Fin Name.shardCount :=
  ⟨(hash s).toNat % Name.shardCount, Nat.mod_lt _ (by decide)⟩

def bare : Pool where
  shards := (Vector.replicate Name.shardCount {}).set 0 (Shard.push {} "") (by decide)
  count := 1

def intern (p : Pool) (s : String) : Except PoolError (Name × Pool) :=
  let k := shardOf s
  let shard := p.shards[k]
  match shard.index.lookup s with
  | some position => .ok (Name.ofParts k position, p)
  | none =>
    let position := shard.texts.length
    if Name.maxPosition < position then .error (.shardFull k position)
    else .ok (Name.ofParts k position,
      { shards := p.shards.set k (shard.push s), count := p.count + 1 })

def internAll (p : Pool) : List String → Except PoolError (List Name × Pool)
  | [] => .ok ([], p)
  | s :: rest => do
    let (name, p) ← p.intern s
    let (names, p) ← p.internAll rest
    return (name :: names, p)

def keywords : List String :=
  ["int", "float", "string", "boolean", "blob", "type", "xml", "datatable", "json", "any", "map",
   "null", "function", "struct", "connector", "enum"]

/-- The pool at the start. No shard is near its capacity, so no keyword is refused. -/
def initial : Pool :=
  match bare.internAll keywords with
  | .ok (_, p) => p
  | .error _ => bare

def lookup (p : Pool) (n : Name) : Except Fault String :=
  let texts := p.shards[n.shard].texts
  match texts[n.position]? with
  | some s => .ok s
  | none => .error (.outOfRange texts.length n.position)

/-- A pool with nothing but the empty text counts as empty. -/
def isEmpty (p : Pool) : Bool := p.count ≤ 1

end Pool

end TypeConformance
