import CedarGraph.Types
import CedarGraph.Lib.Bloom

/-!
# The two filters of an SST file

A file has a bitmap filter over its entity ids (`BloomFilter`) and a temporal filter whose level
0 (`ClassicBloomFilter`) is also in the metadata; the temporal buckets are not asked and are
left out. The optimal counts are evaluated at the only configuration used, 100000 keys at a rate
of 0.01.
-/

namespace CedarGraph

open FixedWidth Bloom List

namespace BloomFilter

def hashMultiplier : UInt32 := 0x5bd1e995

def hashWord (hash word : UInt32) : UInt32 :=
  let scaled := word * hashMultiplier
  let mixed := (scaled ^^^ (scaled >>> 24)) * hashMultiplier
  (hash * hashMultiplier) ^^^ mixed

/-- `Hash` on the eight bytes of an entity id. -/
def hash (key : UInt64) (seed : UInt32) : UInt32 :=
  let start := seed ^^^ 8
  let low := hashWord start (UInt32.ofNat (key.toNat % 2 ^ 32))
  let high := hashWord low (UInt32.ofNat (key.toNat / 2 ^ 32))
  let shifted := (high ^^^ (high >>> 13)) * hashMultiplier
  shifted ^^^ (shifted >>> 15)

def hashFuncs : Nat := 6

/-- The bit positions of a key in a filter of `size` bytes. -/
def probes (size : Nat) (key : UInt64) : List Nat :=
  let first := hash key 0xbc9f1d34
  let delta := (first >>> 17) ||| (first <<< 15)
  (List.range hashFuncs).map fun i =>
    (first + UInt32.ofNat i * delta).toNat % (size * 8)

/-- The byte size the constructor chooses for ten bits per key. -/
def dataSize (numKeys : Nat) : Nat :=
  max 64 ((numKeys * 10 + 7) / 8)

/-- The filter data `WriteFile` builds: sized by the number of rows, with every
distinct entity id added. -/
def build (numKeys : Nat) (entityIds : List UInt64) : Bytes :=
  addAll (probes (dataSize numKeys)) (List.replicate (dataSize numKeys) 0) entityIds.dedup

def mayContain (data : Bytes) (key : UInt64) : Bool :=
  data.isEmpty || Bloom.mayContain (probes data.length) data key

theorem mayContain_build (numKeys : Nat) {entityIds : List UInt64} {id : UInt64}
    (mem : id ∈ entityIds) : mayContain (build numKeys entityIds) id = true := by
  have positive : 0 < dataSize numKeys := by
    rw [dataSize]
    omega
  rw [mayContain, build, length_addAll, length_replicate]
  rw [mayContain_addAll]
  · rw [Bool.or_true]
  · intro key pos positionMember
    rw [probes, mem_map] at positionMember
    obtain ⟨i, _, rfl⟩ := positionMember
    rw [length_replicate]
    have bound := Nat.mod_lt (hash key 0xbc9f1d34 + UInt32.ofNat i *
        (hash key 0xbc9f1d34 >>> 17 ||| hash key 0xbc9f1d34 <<< 15)).toNat
      (show 0 < dataSize numKeys * 8 by omega)
    omega
  · exact mem_dedup.mpr mem

end BloomFilter

namespace TemporalFilter

def rotateLeft64 (value : UInt64) (count : UInt64) : UInt64 :=
  (value <<< count) ||| (value >>> (64 - count))

def fmix64 (value : UInt64) : UInt64 :=
  let first := (value ^^^ (value >>> 33)) * 0xff51afd7ed558ccd
  let second := (first ^^^ (first >>> 33)) * 0xc4ceb9fe1a85ec53
  second ^^^ (second >>> 33)

/-- `Hash128` on the eight bytes of an entity id. -/
def hash128 (key : UInt64) : UInt64 × UInt64 :=
  let seed : UInt64 := 0x9747b28c
  let mixed := rotateLeft64 (key * 0x87c37b91114253d5) 31 * 0x4cf5ad432745937f
  let low := (seed ^^^ mixed) ^^^ 8
  let high := seed ^^^ 8
  let low := low + high
  let high := high + low
  let low := fmix64 low
  let high := fmix64 high
  let low := low + high
  (low, high + low)

def numBits : Nat := 958505

def numHashes : Nat := 6

def probes (key : UInt64) : List Nat :=
  let hashes := hash128 key
  (List.range numHashes).map fun i =>
    (hashes.1 + UInt64.ofNat i * hashes.2).toNat % numBits

def build (entityIds : List UInt64) : Bytes :=
  addAll probes (List.replicate ((numBits + 7) / 8) 0) entityIds

def mayContain (data : Bytes) (key : UInt64) : Bool :=
  Bloom.mayContain probes data key

theorem mayContain_build {entityIds : List UInt64} {id : UInt64} (mem : id ∈ entityIds) :
    mayContain (build entityIds) id = true := by
  rw [mayContain, build]
  apply mayContain_addAll _ _ mem
  intro key pos positionMember
  rw [probes, mem_map] at positionMember
  obtain ⟨i, _, rfl⟩ := positionMember
  have bound := Nat.mod_lt ((hash128 key).1 + UInt64.ofNat i * (hash128 key).2).toNat
    (show 0 < numBits by decide)
  rw [length_replicate]
  dsimp only [numBits] at bound ⊢
  omega

end TemporalFilter

end CedarGraph
