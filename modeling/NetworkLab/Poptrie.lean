import Mathlib.Algebra.Group.Nat.Defs
import Mathlib.Data.Nat.Init
import Mathlib.Data.List.Basic
import Mathlib.Logic.Function.Basic

/-!
# The compressed trie

A node covers six bits of an address and has 64 slots. The slots in `vector` have child
nodes, which are one array; the others have leaves, and a leaf is stored once for a run of
slots, the first of which is in `leafvec`. Arrays of nodes are numbered as they are
allocated. The use of a freed array, or of a place beyond the end of an array, has no
defined result. Allocation is taken to succeed; this includes `malloc_leaf(0)`, whose
`memset` writes 8 bytes to an array of no leaves.
-/
namespace NetworkLab.Tries

section Data

/-- `leaf_t`. -/
structure Leaf where
  iface : UInt32
  mask : UInt32
  deriving DecidableEq

/-- `internal_t`. -/
structure Internal where
  leafvec : BitVec 64
  vector : BitVec 64
  child : Option ℕ
  leaf : List Leaf
  deriving DecidableEq

/-- An array of nodes and an index in it. -/
abbrev NodePtr := ℕ × ℕ

/-- The nodes in memory, the direct pointers and the two counters. -/
structure Poptrie where
  arrays : List (Option (List Internal))
  directPointing : ℕ → Option NodePtr
  counterLeaf : UInt32
  counterInternal : UInt32

/-- The node that `init_root_poptrie` returns. -/
def root : NodePtr := (0, 0)

/-- `init_root_poptrie` on counters that are zero. -/
def initRootPoptrie : Poptrie where
  arrays := [some [⟨1, 0, none, [⟨0, 0⟩]⟩]]
  directPointing := fun _ => none
  counterLeaf := 1
  counterInternal := 1

end Data

section Access

/-- `memcpy` from an array. -/
def copy {α : Type} (xs : List α) (start count : ℕ) : Option (List α) :=
  if start + count ≤ xs.length then some ((xs.drop start).take count) else none

namespace Poptrie

variable (s : Poptrie)

def node (p : NodePtr) : Option Internal := s.arrays[p.1]?.join.bind fun nodes => nodes[p.2]?

def setNode (p : NodePtr) (nd : Internal) : Poptrie :=
  { s with arrays := s.arrays.modify p.1 (·.map fun nodes => nodes.set p.2 nd) }

/-- The array that the pointer leads to; nothing is read through a null pointer. -/
def children : Option ℕ → Option (List Internal)
  | none => some []
  | some b => s.arrays[b]?.join

def free : Option ℕ → Poptrie
  | none => s
  | some b => { s with arrays := s.arrays.set b none }

end Poptrie

def secMask : UInt32 := 0xfc000000

/-- The next six bits of the address. -/
def keyOf (dest : UInt32) : ℕ := ((dest &&& secMask) >>> 26).toNat

/-- The number of bits of `vec` that are set below `n`. -/
def onesBelow (vec : BitVec 64) : ℕ → ℕ
  | 0 => 0
  | n + 1 => onesBelow vec n + (vec.getLsbD n).toNat

def countOneBit (num : BitVec 64) : ℕ := onesBelow num 64

/-- The array `idx` after the slots below `n` have been looked at. -/
def Internal.idx (nd : Internal) : ℕ → ℕ × ℕ
  | 0 => (0, 0)
  | n + 1 =>
    let idx := nd.idx n
    if nd.vector.getLsbD n then (idx.1, idx.2 + 1)
    else (idx.1 + (nd.leafvec.getLsbD n).toNat, idx.2)

/-- The leaf `leaf + idx₀ - 1`. -/
def Internal.leafBefore (nd : Internal) (idx₀ : ℕ) : Option Leaf :=
  if idx₀ = 0 then none else nd.leaf[idx₀ - 1]?

end Access

section Get

/-- The loop of `get_poptrie`; the result is NULL when it ends. -/
def Poptrie.getFrom (s : Poptrie) : ℕ → NodePtr → UInt32 → UInt32 → Option (Option Leaf)
  | 0, _, _, _ => none
  | fuel + 1, current, mask, dest =>
    if mask = 0 then some none
    else do
      let nd ← s.node current
      let key := keyOf dest
      let idx := nd.idx (key + 1)
      if nd.vector.getLsbD key then
        let child ← nd.child
        getFrom s fuel (child, idx.2 - 1) (mask - 6) (dest <<< 6)
      else
        let result ← nd.leafBefore idx.1
        some (some result)

/-- `get_poptrie`; `mask` reaches zero within so many rounds. -/
def Poptrie.getPoptrie (s : Poptrie) (dest : UInt32) : Option (Option Leaf) :=
  match s.directPointing (dest >>> 20).toNat with
  | none => s.getFrom (2 ^ 32) root 32 dest
  | some current => s.getFrom (2 ^ 32) current 20 (dest <<< 12)

end Get

section Split

/-- `renew_pointing` up to `n`, with the number of children before. -/
def renewPointing (directPointing : ℕ → Option NodePtr) (head : ℕ) (vec : BitVec 64)
    (newChild : ℕ) : ℕ → (ℕ → Option NodePtr) × ℕ
  | 0 => (directPointing, 0)
  | i + 1 =>
    let (pointing, idx) := renewPointing directPointing head vec newChild i
    if vec.getLsbD i then (Function.update pointing (head + i) (some (newChild, idx)), idx + 1)
    else (pointing, idx)

/-- The next slot after `key` with a leaf, if it goes on with the same one. -/
def Internal.tail (nd : Internal) (key : ℕ) : Option ℕ :=
  ((List.range' (key + 1) (63 - key)).find? fun i => !nd.vector.getLsbD i).filter
    fun i => !nd.leafvec.getLsbD i

/-- The slot is put into `vector`, and a leaf that only it has used is taken out. The second
component says whether one was. -/
def Internal.release (nd : Internal) (key idx₀ : ℕ) : Option (Internal × Bool) :=
  let setBit : BitVec 64 := 1#64 <<< key
  let vector := nd.vector ||| setBit
  let leafvec := nd.leafvec &&& ~~~setBit
  if nd.leafvec.getLsbD key then
    match nd.tail key with
    | some i => some ({ nd with vector := vector, leafvec := leafvec ||| 1#64 <<< i }, false)
    | none => do
      let before ← copy nd.leaf 0 (idx₀ - 1)
      let after ← copy nd.leaf idx₀ (countOneBit leafvec + 1 - idx₀)
      some ({ nd with vector := vector, leafvec := leafvec, leaf := before ++ after }, true)
  else some ({ nd with vector := vector, leafvec := leafvec }, false)

/-- A slot with a leaf gets a child, where the leaf is in every slot. -/
def Poptrie.split (s : Poptrie) (current : NodePtr) (key level head : ℕ) : Option Poptrie := do
  let nd ← s.node current
  let idx := nd.idx (key + 1)
  let tmp ← nd.leafBefore idx.1
  let (nd', removed) ← nd.release key idx.1
  let children ← s.children nd.child
  let before ← copy children 0 idx.2
  let after ← copy children idx.2 (countOneBit nd.vector - idx.2)
  let newChild := s.arrays.length
  let t := s.free nd.child
  let t : Poptrie :=
    { arrays := t.arrays ++ [some (before ++ ⟨1, 0, none, [tmp]⟩ :: after)]
      directPointing :=
        if level = 1 then (renewPointing s.directPointing head nd'.vector newChild 64).1
        else s.directPointing
      counterLeaf := (if removed then s.counterLeaf - 1 else s.counterLeaf) + 1
      counterInternal := s.counterInternal + 1 }
  some (t.setNode current { nd' with child := some newChild })

/-- The first loop of `put_poptrie`, with the rest of the address and of the length. -/
def Poptrie.descend (head : ℕ) :
    ℕ → Poptrie → NodePtr → ℕ → UInt32 → UInt32 → Option (Poptrie × NodePtr × UInt32 × UInt32)
  | 0, s, current, _, dest, mask => if mask ≤ 6 then some (s, current, dest, mask) else none
  | fuel + 1, s, current, level, dest, mask =>
    if mask ≤ 6 then some (s, current, dest, mask)
    else do
      let nd ← s.node current
      let key := keyOf dest
      let idx := nd.idx (key + 1)
      let bit := nd.vector.getLsbD key
      let t ← (if bit then some s else s.split current key level head)
      let nd' ← t.node current
      let child ← nd'.child
      descend head fuel t (child, idx.2 - bit.toNat) (level + 1) (dest <<< 6) (mask - 6)

/-- The first loop from the root, or from the node that `direct_pointing` leads to. -/
def Poptrie.reach (s : Poptrie) (dest mask : UInt32) :
    Option (Poptrie × NodePtr × UInt32 × UInt32) :=
  let head := keyOf dest <<< 6
  match if 12 < mask then s.directPointing (dest >>> 20).toNat else none with
  | none => Poptrie.descend head mask.toNat s root 0 dest mask
  | some current => Poptrie.descend head mask.toNat s current 2 (dest <<< 12) (mask - 12)

end Split

section Edit

/-- The new `leafvec` and the leaves in the cache, with the variables of the three loops. -/
structure Edit where
  leafvec : BitVec 64
  cache : List Leaf
  idx₀ : ℕ
  first : Bool
  last : Leaf

namespace Internal

variable (nd : Internal)

/-- A slot before the range. -/
def editBefore (e : Edit) (i : ℕ) : Option Edit :=
  if !nd.vector.getLsbD i && nd.leafvec.getLsbD i then do
    let l ← nd.leaf[e.idx₀]?
    some { e with last := l, cache := e.cache ++ [l], idx₀ := e.idx₀ + 1 }
  else some e

/-- A slot of the range. -/
def editRange (new : Leaf) (e : Edit) (i : ℕ) : Option Edit :=
  if !nd.vector.getLsbD i && (e.first || nd.leafvec.getLsbD i) then do
    let e ← (if nd.leafvec.getLsbD i then
        nd.leaf[e.idx₀]?.map fun l => { e with last := l, idx₀ := e.idx₀ + 1 }
      else some e)
    if e.last.mask ≤ new.mask then
      some { e with
        first := false, leafvec := e.leafvec ||| 1#64 <<< i, cache := e.cache ++ [new] }
    else some { e with first := false }
  else some e

/-- A slot after the range; `first` says that the range had a leaf and that no slot after it
has had one yet. -/
def editAfter (e : Edit) (i : ℕ) : Option Edit :=
  if nd.vector.getLsbD i then some e
  else if e.first && !nd.leafvec.getLsbD i then
    some { e with
      first := false, leafvec := e.leafvec ||| 1#64 <<< i, cache := e.cache ++ [e.last] }
  else if nd.leafvec.getLsbD i then do
    let l ← nd.leaf[e.idx₀]?
    some { e with first := false, cache := e.cache ++ [l], idx₀ := e.idx₀ + 1 }
  else some { e with first := false }

/-- The three loops over the slots. -/
def edit (key range : ℕ) (new : Leaf) : Option Edit := do
  let e ← (List.range' 0 key).foldlM nd.editBefore ⟨nd.leafvec, [], 0, true, ⟨0, 0⟩⟩
  let e ← (List.range' key range).foldlM (nd.editRange new) { e with first := true }
  (List.range' (key + range) (64 - (key + range))).foldlM nd.editAfter { e with first := !e.first }

end Internal

/-- The address without the bits behind the prefix. -/
def masked (dest mask : UInt32) : UInt32 := dest >>> (32 - mask) <<< (32 - mask)

/-- `put_poptrie`. -/
def Poptrie.putPoptrie (s : Poptrie) (dest mask iface : UInt32) : Option Poptrie := do
  let (s, current, dest, maskCopy) ← s.reach (masked dest mask) mask
  let nd ← s.node current
  let e ← nd.edit (keyOf dest) (1 <<< (6 - maskCopy).toNat) ⟨iface, mask⟩
  let s := s.setNode current { nd with leafvec := e.leafvec, leaf := e.cache }
  some { s with counterLeaf :=
    s.counterLeaf + (UInt32.ofNat e.cache.length - UInt32.ofNat e.idx₀) }

end Edit

end NetworkLab.Tries
