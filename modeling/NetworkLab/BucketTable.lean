import Mathlib.Data.List.Basic
import Mathlib.Data.List.Nodup

/-!
# Hash tables with chained buckets

Every bucket is a list in insertion order. A search stops at the first entry
that matches, and an update in place changes that entry only. `BucketTable`
carries the invariant of a table in which each key occurs at most once, in the
bucket of its hash; seen through `get` it is a finite map.
-/
namespace NetworkLab

section FirstMatch

variable {α γ : Type*}

/-- Change the first element that satisfies `p` and leave the others. -/
def updateFirst (p : α → Bool) (f : α → α) : List α → List α
  | [] => []
  | a :: l => if p a then f a :: l else a :: updateFirst p f l

theorem mem_updateFirst {p : α → Bool} {f : α → α} {l : List α} {x : α}
    (h : x ∈ updateFirst p f l) : x ∈ l ∨ ∃ y ∈ l, p y = true ∧ x = f y := by
  induction l with
  | nil => simp [updateFirst] at h
  | cons a l ih =>
    by_cases hp : p a = true
    · simp only [updateFirst, hp, if_true, List.mem_cons] at h
      rcases h with rfl | h
      · exact .inr ⟨a, by simp, hp, rfl⟩
      · exact .inl (List.mem_cons_of_mem a h)
    · simp only [updateFirst, hp, if_false, List.mem_cons, Bool.false_eq_true] at h
      rcases h with rfl | h
      · exact .inl (by simp)
      · rcases ih h with h | ⟨y, hy, hpy, rfl⟩
        · exact .inl (List.mem_cons_of_mem a h)
        · exact .inr ⟨y, List.mem_cons_of_mem a hy, hpy, rfl⟩

/-- An update that keeps `g` of an element keeps the list of all `g`. -/
theorem map_updateFirst {p : α → Bool} {f : α → α} {g : α → γ} (hg : ∀ a, g (f a) = g a)
    (l : List α) : (updateFirst p f l).map g = l.map g := by
  induction l with
  | nil => rfl
  | cons a l ih => by_cases hp : p a = true <;> simp [updateFirst, hp, hg, ih]

@[simp] theorem length_updateFirst (p : α → Bool) (f : α → α) (l : List α) :
    (updateFirst p f l).length = l.length := by
  have h := congrArg List.length (map_updateFirst (p := p) (f := f) (g := fun _ => ())
    (fun _ => rfl) l)
  simpa using h

/-- An update passes over elements that do not satisfy `p`. -/
theorem updateFirst_append {p : α → Bool} {f : α → α} {l : List α} (h : ∀ a ∈ l, p a = false)
    {a : α} (ha : p a = true) : updateFirst p f (l ++ [a]) = l ++ [f a] := by
  induction l with
  | nil => simp [updateFirst, ha]
  | cons b l ih =>
    have hb := h b List.mem_cons_self
    have hl := ih fun c hc => h c (List.mem_cons_of_mem b hc)
    simp [updateFirst, hb, hl]

theorem find?_updateFirst_self {p : α → Bool} {f : α → α} (hf : ∀ a, p a = true → p (f a) = true)
    (l : List α) : (updateFirst p f l).find? p = (l.find? p).map f := by
  induction l with
  | nil => rfl
  | cons a l ih => by_cases hp : p a = true <;> simp [updateFirst, hp, hf, ih]

/-- A search that ignores the updated element finds what it found before. -/
theorem find?_updateFirst_of_disjoint {p q : α → Bool} {f : α → α}
    (h : ∀ a, p a = true → q a = false ∧ q (f a) = false) (l : List α) :
    (updateFirst p f l).find? q = l.find? q := by
  induction l with
  | nil => rfl
  | cons a l ih =>
    by_cases hp : p a = true
    · simp [updateFirst, hp, h a hp]
    · by_cases hq : q a = true <;> simp [updateFirst, hp, hq, ih]

/-- In a list with distinct keys, deleting the elements that fail `p` leaves the
element found under a key exactly when that element passes `p`. -/
theorem find?_filter_of_nodup [DecidableEq γ] {key : α → γ} (p : α → Bool) (k : γ) {l : List α}
    (hl : (l.map key).Nodup) :
    (l.filter p).find? (fun e => decide (key e = k)) =
      (l.find? (fun e => decide (key e = k))).filter p := by
  induction l with
  | nil => rfl
  | cons a l ih =>
    rw [List.map_cons, List.nodup_cons] at hl
    by_cases hk : key a = k
    · have habs : ∀ x ∈ l, key x ≠ k := fun x hx he =>
        hl.1 (List.mem_map.mpr ⟨x, hx, he.trans hk.symm⟩)
      by_cases hp : p a = true
      · simp [hp, hk, Option.filter]
      · rw [List.filter_cons_of_neg hp, List.find?_cons_of_pos (by simpa using hk)]
        simp only [Option.filter, hp, Bool.false_eq_true, if_false, List.find?_eq_none]
        intro x hx
        simpa using habs x (List.mem_of_mem_filter hx)
    · by_cases hp : p a = true
      · simpa only [List.filter_cons_of_pos hp, List.find?_cons, decide_eq_false hk] using ih hl.2
      · simpa only [List.filter_cons_of_neg hp, List.find?_cons, decide_eq_false hk] using ih hl.2

end FirstMatch

/-- A chained table whose keys are distinct and hashed into their own bucket. -/
structure BucketTable (α κ β : Type*) (key : α → κ) (hash : κ → β) where
  bucket : β → List α
  placed : ∀ b, ∀ e ∈ bucket b, hash (key e) = b
  unique : ∀ b, ((bucket b).map key).Nodup

namespace BucketTable

variable {α κ β : Type*} {key : α → κ} {hash : κ → β} [DecidableEq κ] [DecidableEq β]

/-- The table without entries. -/
def empty : BucketTable α κ β key hash where
  bucket _ := []
  placed := by simp
  unique := by simp

/-- The entry of a key, searched in the bucket of its hash. -/
def get (t : BucketTable α κ β key hash) (k : κ) : Option α :=
  (t.bucket (hash k)).find? (fun e => decide (key e = k))

omit [DecidableEq β] in
theorem get_empty (k : κ) : (empty : BucketTable α κ β key hash).get k = none := rfl

omit [DecidableEq β] in
/-- An entry is found under its key. -/
theorem get_of_mem (t : BucketTable α κ β key hash) {b : β} {e : α} (he : e ∈ t.bucket b) :
    t.get (key e) = some e := by
  have hb := t.placed b e he
  rw [get, hb]
  cases hfind : (t.bucket b).find? fun x => decide (key x = key e) with
  | none => exact absurd (decide_eq_true rfl) (List.find?_eq_none.mp hfind e he)
  | some x =>
    have hkey : key x = key e := by simpa using List.find?_some hfind
    rw [List.inj_on_of_nodup_map (t.unique b) (List.mem_of_find?_eq_some hfind) he hkey]

/-- Append an entry whose key is absent to the bucket of its hash. -/
def add (t : BucketTable α κ β key hash) (e : α) (h : t.get (key e) = none) :
    BucketTable α κ β key hash where
  bucket b := if b = hash (key e) then t.bucket b ++ [e] else t.bucket b
  placed b x hx := by
    by_cases hb : b = hash (key e)
    · simp only [if_pos hb, List.mem_append, List.mem_singleton] at hx
      rcases hx with hx | rfl
      · exact t.placed b x hx
      · exact hb.symm
    · exact t.placed b x (by simpa only [if_neg hb] using hx)
  unique b := by
    by_cases hb : b = hash (key e)
    · subst hb
      have hne : ∀ x ∈ t.bucket (hash (key e)), key x ≠ key e := by
        intro x hx
        simpa using List.find?_eq_none.mp h x hx
      simp only [if_true, List.map_append, List.map_cons, List.map_nil]
      refine List.nodup_append.mpr ⟨t.unique _, by simp, ?_⟩
      rintro _ hx _ hy rfl
      obtain ⟨x, hx, hxe⟩ := List.mem_map.mp hx
      exact hne x hx (hxe.trans (by simpa using hy))
    · simpa only [if_neg hb] using t.unique b

theorem get_add (t : BucketTable α κ β key hash) (e : α) (h : t.get (key e) = none) (k : κ) :
    (t.add e h).get k = if key e = k then some e else t.get k := by
  by_cases hk : key e = k
  · subst hk
    have hn : (t.bucket (hash (key e))).find? (fun x => decide (key x = key e)) = none := h
    simp [get, add, hn]
  · by_cases hb : hash k = hash (key e)
    · simp [get, add, hb, hk]
    · simp [get, add, hb, hk]

/-- Change the entry of a key in place, keeping its key. -/
def modify (t : BucketTable α κ β key hash) (k : κ) (f : α → α) (hf : ∀ a, key (f a) = key a) :
    BucketTable α κ β key hash where
  bucket b :=
    if b = hash k then updateFirst (fun e => decide (key e = k)) f (t.bucket b) else t.bucket b
  placed b x hx := by
    by_cases hb : b = hash k
    · rw [if_pos hb] at hx
      rcases mem_updateFirst hx with hx | ⟨y, hy, -, rfl⟩
      · exact t.placed b x hx
      · rw [hf]; exact t.placed b y hy
    · exact t.placed b x (by simpa only [if_neg hb] using hx)
  unique b := by
    by_cases hb : b = hash k
    · simpa only [if_pos hb, map_updateFirst hf] using t.unique b
    · simpa only [if_neg hb] using t.unique b

theorem get_modify (t : BucketTable α κ β key hash) (k : κ) (f : α → α)
    (hf : ∀ a, key (f a) = key a) (k' : κ) :
    (t.modify k f hf).get k' = if k = k' then (t.get k').map f else t.get k' := by
  by_cases hk : k = k'
  · subst hk
    simp only [get, modify, if_true]
    exact find?_updateFirst_self (by simp [hf]) _
  · by_cases hb : hash k' = hash k
    · simp only [get, modify, if_pos hb, if_neg hk]
      refine find?_updateFirst_of_disjoint (fun a ha => ?_) _
      have hka : key a = k := by simpa using ha
      simp [hf, hka, hk]
    · simp [get, modify, hb, hk]

/-- Delete every entry that fails `p`, in all buckets. -/
def filter (t : BucketTable α κ β key hash) (p : α → Bool) : BucketTable α κ β key hash where
  bucket b := (t.bucket b).filter p
  placed b x hx := t.placed b x (List.mem_of_mem_filter hx)
  unique b := (t.unique b).sublist ((List.filter_sublist).map key)

omit [DecidableEq β] in
/-- A deletion leaves of a key exactly its own entry, when that passes `p`. -/
theorem get_filter (t : BucketTable α κ β key hash) (p : α → Bool) (k : κ) :
    (t.filter p).get k = (t.get k).filter p := find?_filter_of_nodup p k (t.unique _)

end BucketTable

end NetworkLab
