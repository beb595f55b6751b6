import Mathlib.Data.Fintype.Basic
import Mathlib.Logic.Function.Basic
import Mathlib.Tactic.SplitIfs

/-!
# Layered search in which every vertex claims at most one successor

The distance of a vertex is the least number of edges from a source. A search
goes through the layers, and each vertex of the last layer claims the first
successor in list order that has no distance yet. It computes distances exactly
when, in every layer, these claims cover the whole next layer.
-/
namespace NetworkLab.GreedyLayers

variable {α : Type*}

/-- The vertex is reached from a source by a walk of `n` edges. -/
def Walk (source : α → Prop) (edge : α → α → Bool) : ℕ → α → Prop
  | 0, j => source j
  | n + 1, j => ∃ i, Walk source edge n i ∧ edge i j = true

/-- `d` is the least number of edges of a walk from a source. -/
def IsDist (source : α → Prop) (edge : α → α → Bool) (d : ℕ) (j : α) : Prop :=
  Walk source edge d j ∧ ∀ m < d, ¬ Walk source edge m j

section Distance

variable {source : α → Prop} {edge : α → α → Bool}

theorem Walk.exists_isDist {n : ℕ} {j : α} (h : Walk source edge n j) :
    ∃ d ≤ n, IsDist source edge d j := by
  classical
  have hex : ∃ m, Walk source edge m j := ⟨n, h⟩
  exact ⟨Nat.find hex, Nat.find_min' hex h, Nat.find_spec hex, fun m hm => Nat.find_min hex hm⟩

theorem IsDist.unique {d e : ℕ} {j : α} (hd : IsDist source edge d j)
    (he : IsDist source edge e j) : d = e := by
  rcases Nat.lt_trichotomy d e with hlt | heq | hgt
  · exact absurd hd.1 (he.2 d hlt)
  · exact heq
  · exact absurd he.1 (hd.2 e hgt)

/-- An edge leads at most one layer further. -/
theorem IsDist.of_edge {d : ℕ} {i j : α} (h : IsDist source edge d i) (he : edge i j = true) :
    ∃ e ≤ d + 1, IsDist source edge e j := by
  have hwalk : Walk source edge (d + 1) j := ⟨i, h.1, he⟩
  exact hwalk.exists_isDist

/-- Every vertex of a layer but the first has a predecessor in the layer before. -/
theorem IsDist.exists_pred {d : ℕ} {j : α} (h : IsDist source edge (d + 1) j) :
    ∃ i, IsDist source edge d i ∧ edge i j = true := by
  obtain ⟨⟨i, hi, he⟩, hmin⟩ := h
  refine ⟨i, ⟨hi, fun m hm hw => hmin (m + 1) (by omega) ⟨i, hw, he⟩⟩, he⟩

/-- Behind an empty layer all layers are empty. -/
theorem isDist_empty_of_le {d e : ℕ} (hd : ∀ j, ¬ IsDist source edge d j) (hle : d ≤ e) (j : α) :
    ¬ IsDist source edge e j := by
  induction hle generalizing j with
  | refl => exact hd j
  | step _ ih =>
    intro h
    obtain ⟨i, hi, -⟩ := h.exists_pred
    exact ih i hi

end Distance

/-- The vertices claimed by a list of vertices, each taking the first of its free
successors in the order of `rows`. -/
def claims (edge : α → α → Bool) [DecidableEq α] (rows : List α) :
    (α → Bool) → List α → List α
  | _, [] => []
  | free, i :: is =>
    match rows.find? (fun j => edge i j && free j) with
    | none => claims edge rows free is
    | some j => j :: claims edge rows (fun x => free x && decide (x ≠ j)) is

section Claims

variable [DecidableEq α] {edge : α → α → Bool} {rows : List α}

theorem mem_claims {free : α → Bool} {is : List α} {j : α}
    (h : j ∈ claims edge rows free is) :
    j ∈ rows ∧ free j = true ∧ ∃ i ∈ is, edge i j = true := by
  induction is generalizing free with
  | nil => simp [claims] at h
  | cons i is ih =>
    simp only [claims] at h
    split at h
    next =>
      obtain ⟨hr, hf, i', hi', he⟩ := ih h
      exact ⟨hr, hf, i', List.mem_cons_of_mem _ hi', he⟩
    next j' hfind =>
      have hj' := List.find?_some hfind
      simp only [Bool.and_eq_true] at hj'
      rcases List.mem_cons.mp h with rfl | h
      · exact ⟨List.mem_of_find?_eq_some hfind, hj'.2, i, List.mem_cons_self, hj'.1⟩
      · obtain ⟨hr, hf, i', hi', he⟩ := ih h
        simp only [Bool.and_eq_true] at hf
        exact ⟨hr, hf.1, i', List.mem_cons_of_mem _ hi', he⟩

/-- Claims depend only on which successors are free. -/
theorem claims_congr {free free' : α → Bool} {is : List α}
    (h : ∀ i ∈ is, ∀ j, edge i j = true → free j = free' j) :
    claims edge rows free is = claims edge rows free' is := by
  induction is generalizing free free' with
  | nil => rfl
  | cons i is ih =>
    have hpred : (fun j => edge i j && free j) = (fun j => edge i j && free' j) := by
      funext j
      cases he : edge i j with
      | false => rfl
      | true => simp [h i List.mem_cons_self j he]
    simp only [claims, hpred]
    split
    next => exact ih (fun i' hi' => h i' (List.mem_cons_of_mem _ hi'))
    next j hfind =>
      rw [ih (fun i' hi' x hx => by rw [h i' (List.mem_cons_of_mem _ hi') x hx])]

end Claims

/-- Distances found so far, shifted by one, and whether a round found any. -/
structure Frontier (α : Type*) where
  dist : α → ℕ
  farther : Bool

section Search

variable [DecidableEq α] (edge : α → α → Bool) (rows : List α)

/-- A vertex of the current layer claims its first successor without a distance. -/
def expandRow (k : ℕ) (s : Frontier α) (i : α) : Frontier α :=
  if s.dist i = k then
    match rows.find? (fun j => edge i j && decide (s.dist j = 0)) with
    | none => s
    | some j => ⟨Function.update s.dist j (k + 1), true⟩
  else s

def round (k : ℕ) (s : Frontier α) : Frontier α :=
  rows.foldl (expandRow edge rows k) { s with farther := false }

/-- Rounds are made as long as the last one found something; `none` when the
fuel does not suffice. -/
def loop : ℕ → ℕ → Frontier α → Option (Frontier α)
  | 0, _, s => if s.farther then none else some s
  | fuel + 1, k, s => if s.farther then loop fuel (k + 1) (round edge rows (k + 1) s) else some s

variable {edge rows}

/-- The claims made when the rows of a list are expanded in turn from `s`. -/
def roundClaims (edge : α → α → Bool) (rows : List α) (k : ℕ) (s : Frontier α) (is : List α) :
    List α :=
  claims edge rows (fun j => decide (s.dist j = 0)) (is.filter (fun i => decide (s.dist i = k)))

/-- A claim takes a vertex off the free ones and leaves the layer as it is. -/
theorem roundClaims_update {k : ℕ} (hk : k ≠ 0) {s : Frontier α} {j : α} (hj : s.dist j = 0)
    (is : List α) :
    roundClaims edge rows k ⟨Function.update s.dist j (k + 1), true⟩ is =
      claims edge rows (fun x => decide (s.dist x = 0) && decide (x ≠ j))
        (is.filter (fun i => decide (s.dist i = k))) := by
  have hfree : (fun x => decide (Function.update s.dist j (k + 1) x = 0)) =
      (fun x => decide (s.dist x = 0) && decide (x ≠ j)) := by
    funext x
    by_cases hx : x = j <;> simp [hx]
  have hlayer : (fun i => decide (Function.update s.dist j (k + 1) i = k)) =
      (fun i => decide (s.dist i = k)) := by
    funext i
    by_cases hi : i = j
    · have hne : ¬ s.dist j = k := by omega
      simp [hi, hne]
    · simp [hi]
  simp only [roundClaims, hfree, hlayer]

variable (edge rows) in
theorem foldl_expandRow {k : ℕ} (hk : k ≠ 0) (s : Frontier α) (is : List α) :
    (∀ j, (is.foldl (expandRow edge rows k) s).dist j =
        if j ∈ roundClaims edge rows k s is then k + 1 else s.dist j) ∧
      (is.foldl (expandRow edge rows k) s).farther =
        (s.farther || !(roundClaims edge rows k s is).isEmpty) := by
  induction is generalizing s with
  | nil => simp [roundClaims, claims]
  | cons i is ih =>
    simp only [List.foldl_cons]
    by_cases hi : s.dist i = k
    · have hcons : roundClaims edge rows k s (i :: is) = claims edge rows
          (fun j => decide (s.dist j = 0))
          (i :: is.filter (fun i => decide (s.dist i = k))) := by
        simp [roundClaims, hi]
      simp only [expandRow, if_pos hi]
      cases hfind : rows.find? (fun j => edge i j && decide (s.dist j = 0)) with
      | none =>
        have hskip : roundClaims edge rows k s (i :: is) = roundClaims edge rows k s is := by
          rw [hcons]
          simp only [claims, hfind, roundClaims]
        simpa only [hskip] using ih s
      | some j =>
        have hj : edge i j = true ∧ s.dist j = 0 := by simpa using List.find?_some hfind
        have htake : roundClaims edge rows k s (i :: is) =
            j :: roundClaims edge rows k ⟨Function.update s.dist j (k + 1), true⟩ is := by
          rw [hcons, roundClaims_update hk hj.2]
          simp only [claims, hfind]
        obtain ⟨hdist, hfarther⟩ := ih ⟨Function.update s.dist j (k + 1), true⟩
        refine ⟨fun x => ?_, ?_⟩
        · rw [hdist x, htake]
          by_cases hx : x = j <;> simp [hx]
        · rw [hfarther, htake]
          simp
    · have hskip : roundClaims edge rows k s (i :: is) = roundClaims edge rows k s is := by
        simp [roundClaims, hi]
      simp only [expandRow, if_neg hi]
      simpa only [hskip] using ih s

theorem round_dist {k : ℕ} (hk : k ≠ 0) (s : Frontier α) (j : α) :
    (round edge rows k s).dist j =
      if j ∈ roundClaims edge rows k s rows then k + 1 else s.dist j :=
  (foldl_expandRow edge rows hk _ rows).1 j

theorem round_farther {k : ℕ} (hk : k ≠ 0) (s : Frontier α) :
    (round edge rows k s).farther = !(roundClaims edge rows k s rows).isEmpty := by
  have h := (foldl_expandRow edge rows hk { s with farther := false } rows).2
  simpa [round, roundClaims] using h

theorem mem_roundClaims {k : ℕ} {s : Frontier α} {is : List α} {j : α}
    (h : j ∈ roundClaims edge rows k s is) :
    j ∈ rows ∧ s.dist j = 0 ∧ ∃ i ∈ is, s.dist i = k ∧ edge i j = true := by
  obtain ⟨hr, hf, i, hi, he⟩ := mem_claims h
  obtain ⟨hmem, hdist⟩ := List.mem_filter.mp hi
  exact ⟨hr, by simpa using hf, i, hmem, by simpa using hdist, he⟩

variable (edge rows) in
/-- A round changes a distance only from none to the next one. -/
theorem round_dist_cases {k : ℕ} (hk : k ≠ 0) (s : Frontier α) (j : α) :
    (round edge rows k s).dist j = s.dist j ∨
      s.dist j = 0 ∧ (round edge rows k s).dist j = k + 1 := by
  rw [round_dist hk]
  split_ifs with h
  · exact .inr ⟨(mem_roundClaims h).2.1, rfl⟩
  · exact .inl rfl

/-- A vertex without a distance after a round never gets the distance of that
round or an earlier one. -/
theorem loop_dist_cases {fuel k : ℕ} {s t : Frontier α} (h : loop edge rows fuel k s = some t)
    (j : α) : t.dist j = s.dist j ∨ s.dist j = 0 ∧ k + 2 ≤ t.dist j := by
  induction fuel generalizing k s with
  | zero =>
    simp only [loop] at h
    split_ifs at h
    cases h
    exact .inl rfl
  | succ fuel ih =>
    simp only [loop] at h
    split_ifs at h
    · have hround := round_dist_cases edge rows (by omega : k + 1 ≠ 0) s j
      rcases ih h with hsame | ⟨hzero, hlate⟩
      · rcases hround with hr | ⟨hs, hr⟩
        · exact .inl (hsame.trans hr)
        · exact .inr ⟨hs, by omega⟩
      · rcases hround with hr | ⟨-, hr⟩
        · exact .inr ⟨hr ▸ hzero, by omega⟩
        · omega
    · cases h
      exact .inl rfl

/-- Number of rows without a distance. -/
def remaining (rows : List α) (s : Frontier α) : ℕ := rows.countP (fun j => s.dist j = 0)

omit [DecidableEq α] in
theorem countP_lt_countP {p q : α → Bool} {l : List α} (hpq : ∀ x ∈ l, p x = true → q x = true)
    {x : α} (hx : x ∈ l) (hq : q x = true) (hp : p x = false) : l.countP p < l.countP q := by
  induction l with
  | nil => simp at hx
  | cons y l ih =>
    have hle : l.countP p ≤ l.countP q :=
      List.countP_mono_left (fun z hz => hpq z (List.mem_cons_of_mem _ hz))
    simp only [List.countP_cons]
    rcases List.mem_cons.mp hx with rfl | hx
    · simp only [hq, hp, if_true, Bool.false_eq_true, if_false]
      omega
    · have hlt := ih (fun z hz => hpq z (List.mem_cons_of_mem _ hz)) hx
      have hy := hpq y List.mem_cons_self
      split_ifs with h₁ h₂
      · omega
      · exact absurd (hy h₁) h₂
      · omega
      · omega

/-- A round that finds something leaves fewer rows. -/
theorem remaining_round_lt {k : ℕ} (hk : k ≠ 0) {s : Frontier α}
    (hs : (round edge rows k s).farther = true) :
    remaining rows (round edge rows k s) < remaining rows s := by
  rw [round_farther hk, Bool.not_eq_true', List.isEmpty_eq_false_iff] at hs
  obtain ⟨j, hj⟩ := List.exists_mem_of_ne_nil _ hs
  obtain ⟨hr, hzero, -⟩ := mem_roundClaims hj
  refine countP_lt_countP (fun x _ hx => ?_) hr (by simpa using hzero) ?_
  · have hx : (round edge rows k s).dist x = 0 := by simpa using hx
    rcases round_dist_cases edge rows hk s x with hsame | ⟨hsx, -⟩
    · simpa [hsame] using hx
    · simpa using hsx
  · simp [round_dist hk, hj]

/-- The search ends within one round for each row, and one more. -/
theorem loop_isSome {fuel k : ℕ} {s : Frontier α}
    (hfuel : s.farther = true → remaining rows s < fuel) :
    (loop edge rows fuel k s).isSome := by
  induction fuel generalizing k s with
  | zero =>
    cases hs : s.farther with
    | true => exact absurd (hfuel hs) (by omega)
    | false => simp [loop, hs]
  | succ fuel ih =>
    cases hs : s.farther with
    | true =>
      simp only [loop, hs, if_true]
      refine ih (fun hround => ?_)
      have hlt := remaining_round_lt (by omega : k + 1 ≠ 0) hround
      have hle := hfuel hs
      omega
    | false => simp [loop, hs]

end Search

section Correctness

variable [DecidableEq α] (source : α → Prop) (edge : α → α → Bool) (rows : List α)

open Classical in
/-- The claims of layer `d` cover layer `d + 1`. -/
def Saturated (d : ℕ) : Prop :=
  ∀ j, IsDist source edge (d + 1) j →
    j ∈ claims edge rows (fun j => decide (IsDist source edge (d + 1) j))
      (rows.filter (fun i => decide (IsDist source edge d i)))

/-- Every vertex has its distance, shifted by one, and the others have none. -/
def Correct (s : Frontier α) : Prop :=
  (∀ d j, IsDist source edge d j → s.dist j = d + 1) ∧
    ∀ j, (∀ d, ¬ IsDist source edge d j) → s.dist j = 0

/-- The first `k` layers have their distances and nothing else has one. -/
def Agrees (k : ℕ) (s : Frontier α) : Prop :=
  (∀ d j, d < k → IsDist source edge d j → s.dist j = d + 1) ∧
    ∀ j, (∀ d < k, ¬ IsDist source edge d j) → s.dist j = 0

variable {source edge rows}

omit [DecidableEq α] in
theorem Agrees.dist_eq_iff {d k : ℕ} {s : Frontier α} (h : Agrees source edge k s) (hd : d < k)
    (i : α) : s.dist i = d + 1 ↔ IsDist source edge d i := by
  constructor
  · intro hi
    by_contra hno
    by_cases hex : ∃ e < k, IsDist source edge e i
    · obtain ⟨e, he, hdist⟩ := hex
      have hei := h.1 e i he hdist
      obtain rfl : e = d := by omega
      exact hno hdist
    · have hzero := h.2 i (fun e he hdist => hex ⟨e, he, hdist⟩)
      omega
  · exact h.1 d i hd

/-- In a state that agrees so far, a round makes the claims of the last layer. -/
theorem Agrees.roundClaims_eq {d : ℕ} {s : Frontier α} (h : Agrees source edge (d + 1) s) :
    Saturated source edge rows d ↔
      ∀ j, IsDist source edge (d + 1) j → j ∈ roundClaims edge rows (d + 1) s rows := by
  classical
  have hlayer : (fun i => decide (s.dist i = d + 1)) =
      (fun i => decide (IsDist source edge d i)) := by
    funext i
    simp only [h.dist_eq_iff (Nat.lt_succ_self d) i]
  have hclaims : roundClaims edge rows (d + 1) s rows =
      claims edge rows (fun j => decide (IsDist source edge (d + 1) j))
        (rows.filter (fun i => decide (IsDist source edge d i))) := by
    rw [roundClaims, hlayer]
    refine claims_congr (fun i hi j he => ?_)
    have hdi : IsDist source edge d i := by simpa using (List.mem_filter.mp hi).2
    have hiff : s.dist j = 0 ↔ IsDist source edge (d + 1) j := by
      constructor
      · intro hzero
        obtain ⟨e, hle, hdist⟩ := hdi.of_edge he
        rcases Nat.lt_or_ge e (d + 1) with hlt | hge
        · have hej := h.1 e j hlt hdist
          omega
        · obtain rfl : e = d + 1 := by omega
          exact hdist
      · intro hdist
        refine h.2 j (fun e he hde => ?_)
        have hee := hdist.unique hde
        omega
    simp only [hiff]
  rw [hclaims]
  rfl

/-- A saturated layer hands on the agreement. -/
theorem Agrees.round {d : ℕ} {s : Frontier α} (h : Agrees source edge (d + 1) s)
    (hsat : Saturated source edge rows d) :
    Agrees source edge (d + 2) (GreedyLayers.round edge rows (d + 1) s) := by
  have hclaimed := h.roundClaims_eq.mp hsat
  have hk : d + 1 ≠ 0 := by omega
  constructor
  · intro e j he hdist
    rcases Nat.lt_or_ge e (d + 1) with hlt | hge
    · have hej := h.1 e j hlt hdist
      rcases round_dist_cases edge rows hk s j with hsame | ⟨hzero, -⟩
      · omega
      · omega
    · obtain rfl : e = d + 1 := by omega
      rw [round_dist hk, if_pos (hclaimed j hdist)]
  · intro j hno
    have hzero := h.2 j (fun e he => hno e (by omega))
    rw [round_dist hk, if_neg, hzero]
    intro hmem
    obtain ⟨-, -, i, -, hi, he⟩ := mem_roundClaims hmem
    have hdi := (h.dist_eq_iff (Nat.lt_succ_self d) i).mp hi
    obtain ⟨e, hle, hdist⟩ := hdi.of_edge he
    exact hno e (by omega) hdist

/-- If a layer is not saturated, some vertex of the next one misses its distance
for good. -/
theorem Agrees.not_correct {fuel d : ℕ} {s t : Frontier α} (h : Agrees source edge (d + 1) s)
    (hsat : ¬ Saturated source edge rows d)
    (ht : loop edge rows fuel (d + 1) (GreedyLayers.round edge rows (d + 1) s) = some t) :
    ¬ Correct source edge t := by
  intro hcorrect
  rw [h.roundClaims_eq] at hsat
  obtain ⟨j, hj⟩ := not_forall.mp hsat
  obtain ⟨hdist, hmissed⟩ := Classical.not_imp.mp hj
  have hzero : s.dist j = 0 := h.2 j (fun e he hde => by
    have hee := hdist.unique hde
    omega)
  have hround : (GreedyLayers.round edge rows (d + 1) s).dist j = 0 := by
    rw [round_dist (by omega), if_neg hmissed, hzero]
  have hfinal := hcorrect.1 (d + 1) j hdist
  rcases loop_dist_cases ht j with hsame | ⟨-, hlate⟩
  · omega
  · omega

/-- A round that finds nothing in a saturated layer has reached the last one. -/
theorem Agrees.next_empty {d : ℕ} {s : Frontier α} (h : Agrees source edge (d + 1) s)
    (hsat : Saturated source edge rows d)
    (hf : (GreedyLayers.round edge rows (d + 1) s).farther = false) (j : α) :
    ¬ IsDist source edge (d + 1) j := by
  intro hdist
  have hmem := h.roundClaims_eq.mp hsat j hdist
  rw [round_farther (by omega), Bool.not_eq_false', List.isEmpty_iff] at hf
  rw [hf] at hmem
  simp at hmem

variable (rows) in
/-- Once a layer is empty, what agrees so far is correct and nothing is left to claim. -/
theorem Agrees.stop {d : ℕ} {s : Frontier α} (h : Agrees source edge (d + 1) s)
    (hempty : ∀ j, ¬ IsDist source edge d j) :
    Correct source edge s ∧ ∀ e, d ≤ e → Saturated source edge rows e := by
  have hbehind : ∀ e, d ≤ e → ∀ j, ¬ IsDist source edge e j :=
    fun e he j => isDist_empty_of_le hempty he j
  refine ⟨⟨fun e j hdist => ?_, fun j hno => h.2 j (fun e _ => hno e)⟩,
    fun e he j hdist => absurd hdist (hbehind (e + 1) (by omega) j)⟩
  rcases Nat.lt_or_ge e (d + 1) with hlt | hge
  · exact h.1 e j hlt hdist
  · exact absurd hdist (hbehind e (by omega) j)

/-- The search is correct exactly when all layers from the current one on are
saturated. -/
theorem loop_correct_iff {fuel d : ℕ} {s t : Frontier α} (h : Agrees source edge (d + 1) s)
    (hf : s.farther = false → ∀ j, ¬ IsDist source edge d j)
    (ht : loop edge rows fuel d s = some t) :
    Correct source edge t ↔ ∀ e, d ≤ e → Saturated source edge rows e := by
  induction fuel generalizing d s with
  | zero =>
    simp only [loop] at ht
    split_ifs at ht with hs
    cases ht
    have hstop := h.stop rows (hf (by simpa using hs))
    exact iff_of_true hstop.1 hstop.2
  | succ fuel ih =>
    simp only [loop] at ht
    split_ifs at ht with hs
    · by_cases hsat : Saturated source edge rows d
      · rw [ih (h.round hsat) (h.next_empty hsat) ht]
        constructor
        · intro hall e he
          rcases Nat.eq_or_lt_of_le he with rfl | hlt
          · exact hsat
          · exact hall e hlt
        · exact fun hall e he => hall e (by omega)
      · exact iff_of_false (h.not_correct hsat ht) (fun hall => hsat (hall d (Nat.le_refl d)))
    · cases ht
      have hstop := h.stop rows (hf (by simpa using hs))
      exact iff_of_true hstop.1 hstop.2

end Correctness

end NetworkLab.GreedyLayers
