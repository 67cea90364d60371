import Mathlib.Data.Fintype.Pigeonhole
import StructuredSSA.Proofs.Graph.Link

/-!
# Walks along links

A block has at most one successor along the edges of a kind, so following them is a walk without
choices.  There are only so many blocks: a walk that takes as many steps as there are blocks has
been somewhere twice, and from then on it repeats itself.  Hence a search that gives up after so
many steps has looked into every block that the walk ever visits.

## What is here

* `walk` — the block that so many steps lead to.
* `exists_lt_walk_eq` — no step leads to a block that an earlier one, below the number of blocks,
  does not.
* `Vain`, `Nearest`, `Barren`, `Ends` — that a walk meets nothing for so many steps, what it meets
  first, that it never meets anything, and that it stops.
* `search`, `search_cases` — the bounded search along a walk, and what its three answers mean.
-/

set_option autoImplicit false

namespace StructuredSSA

variable {α : Type} {f : BlockId → Option BlockId} {v : BlockId → Option α} {b c d : BlockId}
  {size m n : Nat} {a a' : α}

/-! ## Steps -/

/-- The block that `n` steps along `f` lead to, unless the walk stops before. -/
def walk (f : BlockId → Option BlockId) : Nat → BlockId → Option BlockId
  | 0, b => some b
  | n + 1, b => (f b).bind (walk f n)

@[simp] theorem walk_zero (f : BlockId → Option BlockId) (b : BlockId) : walk f 0 b = some b := rfl

theorem walk_succ (f : BlockId → Option BlockId) (n : Nat) (b : BlockId) :
    walk f (n + 1) b = (f b).bind (walk f n) := rfl

theorem walk_succ_of_next (hc : f b = some c) (n : Nat) : walk f (n + 1) b = walk f n c := by
  rw [walk_succ, hc, Option.bind_some]

theorem walk_add (f : BlockId → Option BlockId) (m n : Nat) (b : BlockId) :
    walk f (m + n) b = (walk f m b).bind (walk f n) := by
  induction m generalizing b with
  | zero => rw [Nat.zero_add, walk_zero, Option.bind_some]
  | succ m ih =>
    rw [Nat.add_right_comm, walk_succ, walk_succ, Option.bind_assoc]
    exact congrArg _ (funext ih)

/-- A walk that has stopped stays so. -/
theorem walk_eq_none_of_le (hm : walk f m b = none) (hle : m ≤ n) : walk f n b = none := by
  obtain ⟨k, rfl⟩ := Nat.exists_eq_add_of_le hle
  rw [walk_add, hm, Option.bind_none]

theorem walk_lt_size (hf : ∀ c d, f c = some d → d < size) (hb : b < size)
    (h : walk f n b = some c) : c < size := by
  induction n generalizing b with
  | zero =>
    cases h
    exact hb
  | succ n ih =>
    obtain ⟨d, hd, h⟩ := Option.bind_eq_some_iff.1 h
    exact ih (hf b d hd) h

/-! ## Blocks are visited again -/

/-- **The pigeonhole principle for walks**: as many steps as there are blocks lead to some block
twice. -/
theorem exists_walk_eq_walk (hf : ∀ c d, f c = some d → d < size) (hb : b < size)
    (h : walk f size b ≠ none) : ∃ i j, i < j ∧ j ≤ size ∧ walk f i b = walk f j b := by
  have hvisit (k : Fin (size + 1)) : ∃ c : Fin size, walk f k b = some c.val := by
    have hk : walk f k b ≠ none := fun hnone =>
      h (walk_eq_none_of_le hnone (Nat.le_of_lt_succ k.isLt))
    obtain ⟨c, hc⟩ := Option.ne_none_iff_exists'.1 hk
    exact ⟨⟨c, walk_lt_size hf hb hc⟩, hc⟩
  choose visit hvisit using hvisit
  obtain ⟨i, j, hne, heq⟩ := Fintype.exists_ne_map_eq_of_card_lt visit (by simp)
  have hwalk : walk f i b = walk f j b := by rw [hvisit i, hvisit j, heq]
  rcases Nat.lt_or_gt_of_ne (Fin.val_ne_of_ne hne) with hlt | hlt
  · exact ⟨i, j, hlt, Nat.le_of_lt_succ j.isLt, hwalk⟩
  · exact ⟨j, i, hlt, Nat.le_of_lt_succ i.isLt, hwalk.symm⟩

/-- Where a walk of as many steps as there are blocks ever comes, fewer steps lead to. -/
theorem exists_lt_walk_eq (hf : ∀ c d, f c = some d → d < size) (hb : b < size)
    (h : walk f size b ≠ none) (n : Nat) : ∃ m < size, walk f m b = walk f n b := by
  obtain ⟨i, j, hij, hj, heq⟩ := exists_walk_eq_walk hf hb h
  induction n using Nat.strongRecOn with
  | ind n ih =>
    rcases Nat.lt_or_ge n j with hn | hn
    · exact ⟨n, Nat.lt_of_lt_of_le hn hj, rfl⟩
    · -- the way from the second visit on is the way from the first one on
      have hshort : walk f (i + (n - j)) b = walk f n b := by
        rw [walk_add, heq, ← walk_add, Nat.add_sub_cancel' hn]
      obtain ⟨m, hm, hwalk⟩ := ih (i + (n - j)) (by omega)
      exact ⟨m, hm, hwalk.trans hshort⟩

/-! ## What a walk meets -/

/-- None of the first `n` blocks on the walk from `b` gives anything. -/
def Vain (f : BlockId → Option BlockId) (v : BlockId → Option α) (n : Nat) (b : BlockId) : Prop :=
  ∀ m < n, ∀ d, walk f m b = some d → v d = none

/-- **The first value met** on the walk from `b`: a block of the walk gives `a`, and no block before
it gives anything. -/
def Nearest (f : BlockId → Option BlockId) (v : BlockId → Option α) (b : BlockId) (a : α) : Prop :=
  ∃ n c, walk f n b = some c ∧ v c = some a ∧ Vain f v n b

/-- No block on the walk from `b` gives anything. -/
def Barren (f : BlockId → Option BlockId) (v : BlockId → Option α) (b : BlockId) : Prop :=
  ∀ n c, walk f n b = some c → v c = none

/-- The walk from `b` stops. -/
def Ends (f : BlockId → Option BlockId) (b : BlockId) : Prop := ∃ n, walk f n b = none

theorem Vain.zero : Vain f v 0 b := fun m hm => absurd hm (Nat.not_lt_zero m)

theorem Vain.succ (hb : v b = none) (hc : f b = some c) (h : Vain f v n c) :
    Vain f v (n + 1) b := by
  rintro (_ | m) hm d hd
  · cases hd
    exact hb
  · rw [walk_succ_of_next hc] at hd
    exact h m (Nat.lt_of_succ_lt_succ hm) d hd

theorem barren_iff_vain : Barren f v b ↔ ∀ n, Vain f v n b :=
  ⟨fun h _ m _ => h m, fun h n => h (n + 1) n (Nat.lt_succ_self n)⟩

theorem Nearest.here (h : v b = some a) : Nearest f v b a := ⟨0, b, rfl, h, .zero⟩

theorem Nearest.beyond (hb : v b = none) (hc : f b = some c) (h : Nearest f v c a) :
    Nearest f v b a := by
  obtain ⟨n, d, hd, ha, hbefore⟩ := h
  exact ⟨n + 1, d, (walk_succ_of_next hc n).trans hd, ha, hbefore.succ hb hc⟩

theorem Nearest.unique (h : Nearest f v b a) (h' : Nearest f v b a') : a = a' := by
  obtain ⟨n, c, hc, ha, hbefore⟩ := h
  obtain ⟨n', c', hc', ha', hbefore'⟩ := h'
  rcases Nat.lt_trichotomy n n' with hlt | rfl | hlt
  · rw [hbefore' n hlt c hc] at ha
    cases ha
  · rw [hc] at hc'
    cases hc'
    rw [ha] at ha'
    exact Option.some.inj ha'
  · rw [hbefore n' hlt c' hc'] at ha'
    cases ha'

theorem Barren.not_nearest (h : Barren f v b) : ¬ Nearest f v b a := by
  rintro ⟨n, c, hc, ha, -⟩
  rw [h n c hc] at ha
  cases ha

/-! ## Searching a walk -/

/-- Looks into at most `fuel` blocks of the walk from `b` for one that gives something.  The search
finds it, or the walk stops before, or the search gives up. -/
def search (f : BlockId → Option BlockId) (v : BlockId → Option α) :
    Nat → BlockId → Option (Option α)
  | 0, _ => none
  | fuel + 1, b =>
    match v b with
    | some a => some (some a)
    | none =>
      match f b with
      | some c => search f v fuel c
      | none => some none

theorem nearest_of_search {fuel : Nat} (h : search f v fuel b = some (some a)) :
    Nearest f v b a := by
  induction fuel generalizing b with
  | zero => cases h
  | succ fuel ih =>
    rw [search] at h
    split at h
    · rename_i a' ha
      cases h
      exact .here ha
    · rename_i hnone
      split at h
      · rename_i c hc
        exact .beyond hnone hc (ih h)
      · cases h

theorem ends_of_search {fuel : Nat} (h : search f v fuel b = some none) :
    Ends f b ∧ Barren f v b := by
  induction fuel generalizing b with
  | zero => cases h
  | succ fuel ih =>
    rw [search] at h
    split at h
    · cases h
    · rename_i hnone
      split at h
      · rename_i c hc
        obtain ⟨⟨n, hn⟩, hbarren⟩ := ih h
        rw [barren_iff_vain] at hbarren
        refine ⟨⟨n + 1, (walk_succ_of_next hc n).trans hn⟩, barren_iff_vain.2 fun m => ?_⟩
        exact fun k hk => (hbarren m).succ hnone hc k (Nat.lt_succ_of_lt hk)
      · rename_i hstop
        have hstep (k : Nat) : walk f (k + 1) b = none := by rw [walk_succ, hstop, Option.bind_none]
        refine ⟨⟨1, hstep 0⟩, ?_⟩
        rintro (_ | m) d hd
        · cases hd
          exact hnone
        · rw [hstep m] at hd
          cases hd

/-- A search that gives up has looked into `fuel` blocks in vain, and there are more. -/
theorem vain_of_search {fuel : Nat} (h : search f v fuel b = none) :
    walk f fuel b ≠ none ∧ Vain f v fuel b := by
  induction fuel generalizing b with
  | zero => exact ⟨by simp, .zero⟩
  | succ fuel ih =>
    rw [search] at h
    split at h
    · cases h
    · rename_i hnone
      split at h
      · rename_i c hc
        obtain ⟨hmore, hvain⟩ := ih h
        rw [walk_succ_of_next hc]
        exact ⟨hmore, hvain.succ hnone hc⟩
      · cases h

/-- **What a search means** that may look into one block more than there are: it finds what the walk
meets first, or the walk stops without having met anything, or the walk never stops and never meets
anything. -/
theorem search_cases (hf : ∀ c d, f c = some d → d < size) (hb : b < size)
    (v : BlockId → Option α) :
    (∃ a, search f v (size + 1) b = some (some a) ∧ Nearest f v b a) ∨
      (search f v (size + 1) b = some none ∧ Ends f b ∧ Barren f v b) ∨
      (search f v (size + 1) b = none ∧ ¬ Ends f b ∧ Barren f v b) := by
  rcases hsearch : search f v (size + 1) b with _ | _ | a
  · obtain ⟨hmore, hvain⟩ := vain_of_search hsearch
    have hlong : walk f size b ≠ none := fun hnone =>
      hmore (walk_eq_none_of_le hnone (Nat.le_succ size))
    refine .inr (.inr ⟨rfl, ?_, fun n c hc => ?_⟩)
    · rintro ⟨n, hn⟩
      obtain ⟨m, hm, hwalk⟩ := exists_lt_walk_eq hf hb hlong n
      exact hlong (walk_eq_none_of_le (hwalk.trans hn) hm.le)
    · obtain ⟨m, hm, hwalk⟩ := exists_lt_walk_eq hf hb hlong n
      exact hvain m (Nat.lt_succ_of_lt hm) c (hwalk.trans hc)
  · exact .inr (.inl ⟨rfl, ends_of_search hsearch⟩)
  · exact .inl ⟨a, rfl, nearest_of_search hsearch⟩

theorem search_eq_found_iff (hf : ∀ c d, f c = some d → d < size) (hb : b < size) :
    search f v (size + 1) b = some (some a) ↔ Nearest f v b a := by
  refine ⟨nearest_of_search, fun h => ?_⟩
  rcases search_cases hf hb v with ⟨a', hsearch, ha'⟩ | ⟨-, -, hbarren⟩ | ⟨-, -, hbarren⟩
  · rw [hsearch, h.unique ha']
  · exact absurd h hbarren.not_nearest
  · exact absurd h hbarren.not_nearest

theorem search_eq_ended_iff (hf : ∀ c d, f c = some d → d < size) (hb : b < size) :
    search f v (size + 1) b = some none ↔ Ends f b ∧ Barren f v b := by
  refine ⟨ends_of_search, fun h => ?_⟩
  rcases search_cases hf hb v with ⟨a, -, ha⟩ | ⟨hsearch, -⟩ | ⟨-, hendless, -⟩
  · exact absurd ha h.2.not_nearest
  · exact hsearch
  · exact absurd h.1 hendless

theorem search_eq_none_iff (hf : ∀ c d, f c = some d → d < size) (hb : b < size) :
    search f v (size + 1) b = none ↔ ¬ Ends f b ∧ Barren f v b := by
  rcases search_cases hf hb v with ⟨a, hsearch, ha⟩ | ⟨hsearch, hends, -⟩ | ⟨hsearch, h⟩
  · exact iff_of_false (by simp [hsearch]) fun h => h.2.not_nearest ha
  · exact iff_of_false (by simp [hsearch]) fun h => h.1 hends
  · exact iff_of_true hsearch h

end StructuredSSA
