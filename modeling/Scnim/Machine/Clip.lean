import Mathlib.Order.Lattice
import Mathlib.Order.MinMax

/-!
# Clipping

Clipping numbers given by representations, some of which stand for no number at all.
-/

namespace Machine

variable {X α : Type*} [LinearOrder α] (value : X → Option α)

-- A comparison is false where one side has no value.
def LeValue (x y : X) : Prop :=
  match value x, value y with
  | some a, some b => a ≤ b
  | _, _ => False

instance (x y : X) : Decidable (LeValue value x y) := by
  unfold LeValue
  cases value x <;> cases value y <;> infer_instance

def LtValue (x y : X) : Prop :=
  match value x, value y with
  | some a, some b => a < b
  | _, _ => False

instance (x y : X) : Decidable (LtValue value x y) := by
  unfold LtValue
  cases value x <;> cases value y <;> infer_instance

theorem not_ltValue_of_none {x y : X} (h : value x = none ∨ value y = none) :
    ¬ LtValue value x y := by
  unfold LtValue
  rcases h with h | h
  · rw [h]
    exact id
  · rw [h]
    cases value x <;> exact id

/-- The smaller one; a second argument without a value is passed over. -/
def smaller (x y : X) : X := if LeValue value x y ∨ value y = none then x else y

def larger (x y : X) : X := if LeValue value y x ∨ value y = none then x else y

def clipTo (l h a : α) : α := if a < l then l else if h < a then h else a

theorem clipTo_eq {l h : α} (hlh : l ≤ h) (a : α) : clipTo l h a = max (min a h) l := by
  unfold clipTo
  by_cases hl : a < l
  · rw [if_pos hl, min_eq_left (hl.le.trans hlh), max_eq_right hl.le]
  · rw [if_neg hl]
    have hla := not_lt.mp hl
    by_cases hh : h < a
    · rw [if_pos hh, min_eq_right hh.le, max_eq_left hlh]
    · rw [if_neg hh, min_eq_left (not_lt.mp hh), max_eq_left hla]

theorem value_smaller {x y : X} {a b : α} (hx : value x = some a) (hy : value y = some b) :
    value (smaller value x y) = some (min a b) := by
  unfold smaller LeValue
  simp only [hx, hy]
  by_cases hab : a ≤ b
  · simp [hab, hx]
  · simp [hab, hy, (not_le.mp hab).le]

theorem value_larger {x y : X} {a b : α} (hx : value x = some a) (hy : value y = some b) :
    value (larger value x y) = some (max a b) := by
  unfold larger LeValue
  simp only [hx, hy]
  by_cases hab : b ≤ a
  · simp [hab, hx]
  · simp [hab, hy, (not_le.mp hab).le]

theorem smaller_none (x : X) {y : X} (hy : value y = none) : smaller value x y = x :=
  if_pos (.inr hy)

theorem larger_none (x : X) {y : X} (hy : value y = none) : larger value x y = x :=
  if_pos (.inr hy)

/-- `f` clips to `[l, h]`, with all that this implies. -/
structure Clips (f : X → X) (l h : α) : Prop where
  eq : ∀ x a, value x = some a → value (f x) = some (clipTo l h a)
  within : ∀ x a, value x = some a → ∃ b, value (f x) = some b ∧ l ≤ b ∧ b ≤ h
  idempotent : ∀ x a, value x = some a → value (f (f x)) = value (f x)
  monotone : ∀ x y a b, value x = some a → value y = some b → a ≤ b →
    ∃ a' b', value (f x) = some a' ∧ value (f y) = some b' ∧ a' ≤ b'

theorem clips_of_value {f : X → X} {l h : α} (hlh : l ≤ h)
    (hf : ∀ x a, value x = some a → value (f x) = some (clipTo l h a)) : Clips value f l h := by
  constructor
  · exact hf
  · intro x a hx
    refine ⟨_, hf x a hx, ?_⟩
    rw [clipTo_eq hlh]
    exact ⟨le_max_right _ _, max_le (min_le_right _ _) hlh⟩
  · intro x a hx
    rw [hf (f x) _ (hf x a hx), hf x a hx, clipTo_eq hlh, clipTo_eq hlh,
      min_eq_left (max_le (min_le_right a h) hlh), max_eq_left (le_max_right _ _)]
  · intro x y a b hx hy hab
    refine ⟨_, _, hf x a hx, hf y b hy, ?_⟩
    rw [clipTo_eq hlh, clipTo_eq hlh]
    exact max_le_max (min_le_min_right h hab) le_rfl

/-- `lo` does as a lower bound what `l` would do. -/
def LowerKept (l : α) (lo : X) : Prop :=
  value lo = some l ∨ (value lo = none ∧ ∀ x a, value x = some a → l ≤ a)

/-- `hi` does as an upper bound what `h` would do, above `l`. -/
def UpperKept (l h : α) (hi : X) : Prop :=
  value hi = some h ∨ (value hi = none ∧ ∀ x a, value x = some a → a ≤ h) ∨
    (l = h ∧ ∃ b, value hi = some b ∧ b < h)

theorem value_larger_kept {l : α} {lo x : X} {a : α} (hlo : LowerKept value l lo)
    (hx : value x = some a) : value (larger value x lo) = some (max a l) := by
  rcases hlo with hlo | ⟨hnone, hleast⟩
  · exact value_larger value hx hlo
  · rw [larger_none value x hnone, hx, max_eq_left (hleast x a hx)]

theorem clips_of_kept {lo hi : X} {l h : α} (hlh : l ≤ h) (hlo : LowerKept value l lo)
    (hhi : UpperKept value l h hi) :
    Clips value (fun x ↦ larger value (smaller value x hi) lo) l h := by
  apply clips_of_value value hlh
  intro x a hx
  rw [clipTo_eq hlh]
  rcases hhi with hhi | ⟨hnone, hgreatest⟩ | ⟨hpoint, b, hb, hbh⟩
  · exact value_larger_kept value hlo (value_smaller value hx hhi)
  · rw [smaller_none value x hnone, value_larger_kept value hlo hx,
      min_eq_left (hgreatest x a hx)]
  · rw [value_larger_kept value hlo (value_smaller value hx hb), hpoint,
      max_eq_right ((min_le_right a b).trans hbh.le), max_eq_right (min_le_right a h)]

theorem exists_value_smaller {x : X} {a : α} (hx : value x = some a) (hi : X) :
    ∃ b, value (smaller value x hi) = some b ∧ b ≤ a := by
  cases hhi : value hi with
  | none => exact ⟨a, by rw [smaller_none value x hhi, hx], le_rfl⟩
  | some b => exact ⟨min a b, value_smaller value hx hhi, min_le_left a b⟩

theorem lowerKept_of_clips {lo hi : X} {l h : α} (hlh : l ≤ h) (hl : ∃ x, value x = some l)
    (hc : Clips value (fun x ↦ larger value (smaller value x hi) lo) l h) :
    LowerKept value l lo := by
  cases hlo : value lo with
  | none =>
      refine .inr ⟨hlo, fun x a hx ↦ ?_⟩
      by_contra hlt
      obtain ⟨b, hb, hba⟩ := exists_value_smaller value hx hi
      have hclip := hc.eq x a hx
      rw [larger_none value _ hlo, hb, clipTo, if_pos (not_le.mp hlt), Option.some.injEq] at hclip
      exact hlt (hclip ▸ hba)
  | some c =>
      -- the number `l` shows that `c` is not above `l`, the number `c` that it is not below
      obtain ⟨x, hx⟩ := hl
      obtain ⟨b, hb, hbl⟩ := exists_value_smaller value hx hi
      have hclip := hc.eq x l hx
      rw [value_larger value hb hlo, clipTo_eq hlh, min_eq_left hlh, max_self,
        Option.some.injEq] at hclip
      have hcl : c ≤ l := hclip ▸ le_max_right b c
      obtain ⟨d, hd, hdc⟩ := exists_value_smaller value hlo hi
      have hself := hc.eq lo c hlo
      rw [value_larger value hd hlo, max_eq_right hdc, clipTo_eq hlh, Option.some.injEq] at hself
      have hlc : l ≤ c := hself ▸ le_max_right (min c h) l
      exact .inl (by rw [hlo, le_antisymm hcl hlc])

theorem upperKept_of_clips {lo hi : X} {l h : α} (hlh : l ≤ h) (hh : ∃ x, value x = some h)
    (hlo : LowerKept value l lo)
    (hc : Clips value (fun x ↦ larger value (smaller value x hi) lo) l h) :
    UpperKept value l h hi := by
  cases hhi : value hi with
  | none =>
      refine .inr (.inl ⟨hhi, fun x a hx ↦ ?_⟩)
      have hclip := hc.eq x a hx
      rw [smaller_none value x hhi, value_larger_kept value hlo hx, clipTo_eq hlh,
        Option.some.injEq] at hclip
      exact (le_max_left a l).trans (hclip ▸ max_le (min_le_right a h) hlh)
  | some b =>
      rcases lt_trichotomy b h with hbh | hbh | hbh
      · obtain ⟨x, hx⟩ := hh
        have hclip := hc.eq x h hx
        rw [value_larger_kept value hlo (value_smaller value hx hhi), min_eq_right hbh.le,
          clipTo_eq hlh, min_self, max_eq_left hlh, Option.some.injEq] at hclip
        refine .inr (.inr ⟨?_, b, hhi, hbh⟩)
        by_contra hne
        exact absurd hclip (max_lt hbh (lt_of_le_of_ne hlh hne)).ne
      · exact .inl (by rw [hhi, hbh])
      · have hclip := hc.eq hi b hhi
        rw [value_larger_kept value hlo (value_smaller value hhi hhi), min_self, clipTo_eq hlh,
          min_eq_right hbh.le, max_eq_left hlh, max_eq_left (hlh.trans hbh.le),
          Option.some.injEq] at hclip
        exact absurd hclip hbh.ne'

/-- Clipping by representations of the bounds is clipping to `[l, h]` exactly if both are kept. -/
theorem clips_iff {lo hi : X} {l h : α} (hlh : l ≤ h) (hl : ∃ x, value x = some l)
    (hh : ∃ x, value x = some h) :
    Clips value (fun x ↦ larger value (smaller value x hi) lo) l h ↔
      LowerKept value l lo ∧ UpperKept value l h hi := by
  constructor
  · intro hc
    have hlo := lowerKept_of_clips value hlh hl hc
    exact ⟨hlo, upperKept_of_clips value hlh hh hlo hc⟩
  · rintro ⟨hlo, hhi⟩
    exact clips_of_kept value hlh hlo hhi

end Machine
