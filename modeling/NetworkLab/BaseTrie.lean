import NetworkLab.LongestMatch

/-!
# The binary trie

A node of the plain trie has a son for each value of the next bit, and is marked where an
inserted prefix ends. A lookup returns the last marked node on the way of the address. The
code leaves the mark of the root uninitialised, and `put_base` sets it for a prefix of length
zero, but no lookup reads it.
-/
namespace NetworkLab.Tries

section Model

/-- What a node of type `node_t` stores besides its sons. -/
structure BaseData where
  isMatch : Bool
  iface : UInt32
  dest : UInt32
  deriving DecidableEq

/-- A node of type `node_t` with its sons, or a null pointer. -/
inductive BaseNode
  | null
  | node (data : BaseData) (son₀ son₁ : BaseNode)

def BaseNode.son : BaseNode → Bool → BaseNode
  | .null, _ => .null
  | .node _ son₀ _, false => son₀
  | .node _ _ son₁, true => son₁

def BaseNode.setSon : BaseNode → Bool → BaseNode → BaseNode
  | .null, _, _ => .null
  | .node data _ son₁, false, son => .node data son son₁
  | .node data son₀ _, true, son => .node data son₀ son

/-- `bit_idx` at this depth, with `bit_chk` shifted along. -/
def bitIdx (dest : UInt32) (depth : ℕ) : Bool := dest.toNat.testBit (32 - depth)

/-- `init_root_base`. -/
def initRootBase : BaseNode := .node ⟨false, 0, 0⟩ .null .null

/-- The second loop of `put_base`: new nodes down to the one where the prefix ends. -/
def newBranch (dest iface : UInt32) : ℕ → ℕ → BaseNode
  | 0, _ => .node ⟨true, iface, dest⟩ .null .null
  | rest + 1, depth =>
    (BaseNode.node ⟨false, 0, 0⟩ .null .null).setSon (bitIdx dest (depth + 1))
      (newBranch dest iface rest (depth + 1))

/-- The first loop of `put_base`, which goes down while there are sons. -/
def putBaseFrom (dest iface : UInt32) : ℕ → ℕ → BaseNode → BaseNode
  | 0, _, .node _ son₀ son₁ => .node ⟨true, iface, dest⟩ son₀ son₁
  | rest + 1, depth, .node data son₀ son₁ =>
    let current := BaseNode.node data son₀ son₁
    let bit := bitIdx dest (depth + 1)
    match current.son bit with
    | .null => current.setSon bit (newBranch dest iface rest (depth + 1))
    | son => current.setSon bit (putBaseFrom dest iface rest (depth + 1) son)
  | _, _, .null => .null

/-- `put_base`. -/
def putBase (root : BaseNode) (iface mask dest : UInt32) : BaseNode :=
  putBaseFrom dest iface mask.toNat 0 root

/-- The loop of `get_base`. -/
def getBaseFrom (dest : UInt32) : ℕ → ℕ → BaseNode → Option BaseData → Option BaseData
  | 0, _, _, result => result
  | rest + 1, depth, current, result =>
    match current.son (bitIdx dest (depth + 1)) with
    | .null => result
    | .node data son₀ son₁ =>
      getBaseFrom dest rest (depth + 1) (.node data son₀ son₁)
        (if data.isMatch then some data else result)

/-- `get_base`. -/
def getBase (root : BaseNode) (dest : UInt32) : Option BaseData :=
  getBaseFrom dest 32 0 root none

end Model

section Entries

/-- The bits of an address behind the first `depth`. -/
def bitsFrom (dest : UInt32) (depth count : ℕ) : List Bool :=
  (List.range' (depth + 1) count).map (bitIdx dest)

theorem bitsFrom_succ (dest : UInt32) (depth count : ℕ) :
    bitsFrom dest depth (count + 1) = bitIdx dest (depth + 1) :: bitsFrom dest (depth + 1) count :=
  rfl

/-- What is marked where the path of bits ends. -/
def BaseNode.entry : BaseNode → List Bool → Option BaseData
  | .null, _ => none
  | .node data _ _, [] => if data.isMatch then some data else none
  | .node _ son₀ son₁, bit :: bits => if bit then son₁.entry bits else son₀.entry bits

variable {dest iface : UInt32} {depth : ℕ} {t : BaseNode}

theorem entry_cons (t : BaseNode) (bit : Bool) (bits : List Bool) :
    t.entry (bit :: bits) = (t.son bit).entry bits := by
  cases t with
  | null => rfl
  | node data son₀ son₁ => cases bit <;> rfl

theorem entry_setSon_nil (t : BaseNode) (bit : Bool) (son : BaseNode) :
    (t.setSon bit son).entry [] = t.entry [] := by
  cases t with
  | null => rfl
  | node data son₀ son₁ => cases bit <;> rfl

theorem entry_setSon_cons (h : t ≠ .null) (bit : Bool) (son : BaseNode) (b : Bool)
    (bits : List Bool) :
    (t.setSon bit son).entry (b :: bits) =
      if b = bit then son.entry bits else t.entry (b :: bits) := by
  cases t with
  | null => exact absurd rfl h
  | node data son₀ son₁ => cases bit <;> cases b <;> rfl

theorem setSon_ne_null (h : t ≠ .null) (bit : Bool) (son : BaseNode) :
    t.setSon bit son ≠ .null := by
  cases t with
  | null => exact absurd rfl h
  | node data son₀ son₁ => cases bit <;> exact BaseNode.noConfusion

theorem entry_newBranch (rest : ℕ) (bits : List Bool) :
    (newBranch dest iface rest depth).entry bits =
      if bits = bitsFrom dest depth rest then some ⟨true, iface, dest⟩ else none := by
  induction rest generalizing depth bits with
  | zero =>
    cases bits with
    | nil => rfl
    | cons b bits => cases b <;> rfl
  | succ rest ih =>
    have hnode : BaseNode.node ⟨false, 0, 0⟩ .null .null ≠ .null := BaseNode.noConfusion
    rw [newBranch, bitsFrom_succ]
    cases bits with
    | nil => rw [entry_setSon_nil, if_neg (List.cons_ne_nil _ _).symm]; rfl
    | cons b bits =>
      rw [entry_setSon_cons hnode]
      by_cases hb : b = bitIdx dest (depth + 1)
      · simp only [hb, if_true, ih, List.cons.injEq, true_and]
      · simp only [hb, if_false, List.cons.injEq, false_and]
        cases b <;> rfl

/-- An insertion marks the node where its prefix ends. -/
theorem entry_putBaseFrom (h : t ≠ .null) (rest : ℕ) (bits : List Bool) :
    (putBaseFrom dest iface rest depth t).entry bits =
      if bits = bitsFrom dest depth rest then some ⟨true, iface, dest⟩ else t.entry bits := by
  induction rest generalizing depth t bits with
  | zero =>
    cases t with
    | null => exact absurd rfl h
    | node data son₀ son₁ =>
      cases bits with
      | nil => rfl
      | cons b bits => cases b <;> rfl
  | succ rest ih =>
    cases t with
    | null => exact absurd rfl h
    | node data son₀ son₁ =>
      -- Whether there was a son or not, the bits behind the first lead to its entries.
      have hson : ∃ son, putBaseFrom dest iface (rest + 1) depth (.node data son₀ son₁) =
          (BaseNode.node data son₀ son₁).setSon (bitIdx dest (depth + 1)) son ∧
          ∀ bits, son.entry bits = if bits = bitsFrom dest (depth + 1) rest then
            some ⟨true, iface, dest⟩ else
            ((BaseNode.node data son₀ son₁).son (bitIdx dest (depth + 1))).entry bits := by
        rw [putBaseFrom]
        cases hold : (BaseNode.node data son₀ son₁).son (bitIdx dest (depth + 1)) with
        | null => exact ⟨_, rfl, entry_newBranch rest⟩
        | node data' son₀' son₁' => exact ⟨_, rfl, ih BaseNode.noConfusion⟩
      obtain ⟨son, hput, hentries⟩ := hson
      rw [hput, bitsFrom_succ]
      cases bits with
      | nil => rw [entry_setSon_nil, if_neg (List.cons_ne_nil _ _).symm]
      | cons b bits =>
        rw [entry_setSon_cons h]
        by_cases hb : b = bitIdx dest (depth + 1)
        · subst hb
          rw [if_pos rfl, hentries, entry_cons]
          simp only [List.cons.injEq, true_and]
        · rw [if_neg hb, if_neg fun heq => hb (List.cons.inj heq).1]

theorem putBaseFrom_ne_null (h : t ≠ .null) (rest : ℕ) :
    putBaseFrom dest iface rest depth t ≠ .null := by
  cases t with
  | null => exact absurd rfl h
  | node data son₀ son₁ =>
    cases rest with
    | zero => exact BaseNode.noConfusion
    | succ rest =>
      rw [putBaseFrom]
      split
      · exact setSon_ne_null h _ _
      · exact setSon_ne_null h _ _

end Entries

section Lookups

variable {a : UInt32} {t : BaseNode} {d : BaseData}

theorem length_bitsFrom (a : UInt32) (depth count : ℕ) :
    (bitsFrom a depth count).length = count := by
  rw [bitsFrom, List.length_map, List.length_range']

/-- The first bits are the same where the prefix covers the address. -/
theorem bitsFrom_eq_iff {p : Insertion} (h : p.Proper) (a : UInt32) (k : ℕ) :
    bitsFrom a 0 k = bitsFrom p.dest 0 p.mask.toNat ↔ k = p.mask.toNat ∧ p.Covers a := by
  have h32 := h.le_32
  constructor
  · intro heq
    have hlen := congrArg List.length heq
    rw [length_bitsFrom, length_bitsFrom] at hlen
    subst hlen
    refine ⟨rfl, (Insertion.covers_iff_div h).mpr (Nat.eq_of_testBit_eq fun i => ?_)⟩
    rw [Nat.testBit_div_two_pow, Nat.testBit_div_two_pow]
    rcases Nat.lt_or_ge i p.mask.toNat with hi | hi
    · have hbits := List.map_inj_left.mp heq (p.mask.toNat - i)
        (List.mem_range'_1.mpr ⟨by omega, by omega⟩)
      rw [bitIdx, bitIdx] at hbits
      rwa [show i + (32 - p.mask.toNat) = 32 - (p.mask.toNat - i) by omega]
    · have hhigh (b : UInt32) : b.toNat.testBit (i + (32 - p.mask.toNat)) = false :=
        Nat.testBit_eq_false_of_lt (b.toNat_lt.trans_le
          (Nat.pow_le_pow_right (by norm_num) (by omega)))
      rw [hhigh, hhigh]
  · rintro ⟨rfl, hcovers⟩
    apply List.map_inj_left.mpr
    intro i hi
    have hi' := List.mem_range'_1.mp hi
    have hbit := congrArg (Nat.testBit · (p.mask.toNat - i))
      ((Insertion.covers_iff_div h).mp hcovers)
    simp only [Nat.testBit_div_two_pow] at hbit
    rwa [bitIdx, bitIdx, show 32 - i = p.mask.toNat - i + (32 - p.mask.toNat) by omega]

/-- The loop keeps its result when nothing more is marked on the way. -/
theorem getBaseFrom_eq_result (rest depth : ℕ) (t : BaseNode) (result : Option BaseData)
    (hnone : ∀ j, 1 ≤ j → j ≤ rest → t.entry (bitsFrom a depth j) = none) :
    getBaseFrom a rest depth t result = result := by
  induction rest generalizing depth t with
  | zero => rfl
  | succ rest ih =>
    rw [getBaseFrom]
    cases hson : t.son (bitIdx a (depth + 1)) with
    | null => rfl
    | node data son₀ son₁ =>
      have hentry (j : ℕ) (hj : j ≤ rest) :
          (BaseNode.node data son₀ son₁).entry (bitsFrom a (depth + 1) j) = none := by
        rw [← hson, ← entry_cons, ← bitsFrom_succ]
        exact hnone (j + 1) (Nat.succ_le_succ (Nat.zero_le j)) (Nat.succ_le_succ hj)
      have hmark : data.isMatch = false := by
        have hzero := hentry 0 (Nat.zero_le rest)
        rw [show bitsFrom a (depth + 1) 0 = [] from rfl, BaseNode.entry] at hzero
        by_contra hne
        rw [if_pos (Bool.of_not_eq_false hne)] at hzero
        cases hzero
      simp only [hmark, Bool.false_eq_true, if_false]
      exact ih (depth + 1) _ fun j _ hj => hentry j hj

/-- The loop returns the last node on the way that is marked. -/
theorem getBaseFrom_eq_entry {k : ℕ} (h1 : 1 ≤ k) (rest depth : ℕ) (hk : k ≤ rest) (t : BaseNode)
    (result : Option BaseData) (hentry : t.entry (bitsFrom a depth k) = some d)
    (hnone : ∀ j, k < j → j ≤ rest → t.entry (bitsFrom a depth j) = none) :
    getBaseFrom a rest depth t result = some d := by
  induction rest generalizing depth t k result with
  | zero => omega
  | succ rest ih =>
    obtain ⟨k, rfl⟩ := Nat.exists_eq_add_of_le' h1
    rw [bitsFrom_succ, entry_cons] at hentry
    rw [getBaseFrom]
    cases hson : t.son (bitIdx a (depth + 1)) with
    | null =>
      rw [hson] at hentry
      cases hentry
    | node data son₀ son₁ =>
      rw [hson] at hentry
      have hlater (j : ℕ) (hj : k < j) (hle : j ≤ rest) :
          (BaseNode.node data son₀ son₁).entry (bitsFrom a (depth + 1) j) = none := by
        rw [← hson, ← entry_cons, ← bitsFrom_succ]
        exact hnone (j + 1) (Nat.succ_lt_succ hj) (Nat.succ_le_succ hle)
      rcases Nat.eq_zero_or_pos k with rfl | hpos
      · have hmark : (if data.isMatch then some data else none) = some d := hentry
        by_cases hmatch : data.isMatch = true
        · simp only [if_pos hmatch] at hmark ⊢
          rw [hmark]
          exact getBaseFrom_eq_result rest (depth + 1) _ _ fun j hj => hlater j hj
        · rw [if_neg hmatch] at hmark
          cases hmark
      · exact ih hpos (depth + 1) (by omega) _ _ hentry hlater

end Lookups

section Runs

/-- The insertions one after another. -/
def putBaseAll (root : BaseNode) (ps : List Insertion) : BaseNode :=
  ps.foldl (fun t p => putBase t p.iface p.mask p.dest) root

/-- What an insertion stores. -/
def Insertion.data (p : Insertion) : BaseData := ⟨true, p.iface, p.dest⟩

/-- The longest prefix is marked on the way of the address, and nothing behind it is. -/
structure Deepest (t : BaseNode) (a : UInt32) (o : Option Insertion) : Prop where
  ne_null : t ≠ .null
  entry : ∀ p ∈ o, p.Proper ∧ t.entry (bitsFrom a 0 p.mask.toNat) = some p.data
  none : ∀ j, length o < j → j ≤ 32 → t.entry (bitsFrom a 0 j) = none

variable {t : BaseNode} {a : UInt32} {o : Option Insertion} {p : Insertion}

theorem Deepest.putBase (h : Deepest t a o) (hp : p.Proper) :
    Deepest (putBase t p.iface p.mask p.dest) a (better a o p) := by
  have hentry (j : ℕ) : (Tries.putBase t p.iface p.mask p.dest).entry (bitsFrom a 0 j) =
      if j = p.mask.toNat ∧ p.Covers a then some p.data else t.entry (bitsFrom a 0 j) := by
    rw [Tries.putBase, entry_putBaseFrom h.ne_null, if_congr (bitsFrom_eq_iff hp a j) rfl rfl]
    rfl
  refine ⟨putBaseFrom_ne_null h.ne_null _, ?_, ?_⟩
  · intro q hq
    by_cases hnew : p.Covers a ∧ length o ≤ p.mask.toNat
    · rw [better_pos hnew.1 hnew.2] at hq
      obtain rfl := Option.some.inj hq
      exact ⟨hp, by rw [hentry, if_pos ⟨rfl, hnew.1⟩]⟩
    · rw [better_neg hnew] at hq
      refine ⟨(h.entry q hq).1, ?_⟩
      rw [hentry, if_neg, (h.entry q hq).2]
      rintro ⟨heq, hcovers⟩
      refine hnew ⟨hcovers, ?_⟩
      rw [Option.mem_def.mp hq]
      exact heq.le
  · intro j hj hle
    by_cases hnew : p.Covers a ∧ length o ≤ p.mask.toNat
    · rw [better_pos hnew.1 hnew.2] at hj
      have hj' : p.mask.toNat < j := hj
      rw [hentry, if_neg (by omega)]
      exact h.none j (by omega) hle
    · rw [better_neg hnew] at hj
      rw [hentry, if_neg]
      · exact h.none j hj hle
      · rintro ⟨rfl, hcovers⟩
        exact hnew ⟨hcovers, hj.le⟩

theorem Deepest.getBase (h : Deepest t a o) : getBase t a = o.map Insertion.data := by
  cases o with
  | none => exact getBaseFrom_eq_result 32 0 t _ fun j hj => h.none j hj
  | some p =>
    obtain ⟨hproper, hentry⟩ := h.entry p rfl
    exact getBaseFrom_eq_entry hproper.one_le 32 0 hproper.le_32 t _ hentry h.none

/-- Nothing is marked below the root that `init_root_base` returns. -/
theorem deepest_init (a : UInt32) : Deepest initRootBase a none := by
  refine ⟨BaseNode.noConfusion, fun p hp => (by cases hp), fun j hj _ => ?_⟩
  obtain ⟨j, rfl⟩ := Nat.exists_eq_add_of_le' (show 1 ≤ j from hj)
  rw [bitsFrom_succ, entry_cons]
  cases bitIdx a (0 + 1) <;> rfl

/-- A run of `put_base` gives the longest prefix, in every order. -/
theorem getBase_putBaseAll (ps : List Insertion) (hps : ∀ p ∈ ps, p.Proper) (a : UInt32) :
    getBase (putBaseAll initRootBase ps) a = (longestMatch ps a).map Insertion.data := by
  suffices hrun : Deepest (putBaseAll initRootBase ps) a (longestMatch ps a) from hrun.getBase
  induction ps using List.reverseRecOn with
  | nil => exact deepest_init a
  | append_singleton ps p ih =>
    have hold := ih fun q hq => hps q (List.mem_append_left _ hq)
    rw [longestMatch_append, putBaseAll, List.foldl_append]
    exact hold.putBase (hps p (List.mem_concat_self))

end Runs

end NetworkLab.Tries
