import Mathlib

/-!
Range scans of a store whose entries are sorted by their keys, in both directions: an iterator
is placed at one bound and runs until the other.
-/

namespace SortedStore

variable {K V : Type} [LinearOrder K]

inductive Bound (K : Type) where
  | included (key : K)
  | excluded (key : K)
  | unbounded

namespace Bound

def key : Bound K → Option K
  | included key => some key
  | excluded key => some key
  | unbounded => none

def excludes : Bound K → K → Bool
  | excluded key, query => query == key
  | _, _ => false

/-- A key is above a lower bound. -/
def above : Bound K → K → Bool
  | included key, query => decide (key ≤ query)
  | excluded key, query => decide (key < query)
  | unbounded, _ => true

def below : Bound K → K → Bool
  | included key, query => decide (query ≤ key)
  | excluded key, query => decide (query < key)
  | unbounded, _ => true

end Bound

/-- The entries from `start` on in ascending order, up to `stop`. -/
def ascend (store : List (K × V)) (start stop : Bound K) : List (K × V) :=
  let iterator : List (K × V) :=
    match start.key with
    | some key => store.filter fun entry => key ≤ entry.1
    | none => store
  (iterator.dropWhile fun entry => start.excludes entry.1).takeWhile fun entry =>
    stop.below entry.1

/-- The entries from `start` on in descending order, down to `stop`. -/
def descend (store : List (K × V)) (start stop : Bound K) : List (K × V) :=
  let iterator : List (K × V) :=
    match start.key with
    | some key => (store.filter fun entry => entry.1 ≤ key).reverse
    | none => store.reverse
  (iterator.dropWhile fun entry => start.excludes entry.1).takeWhile fun entry =>
    stop.above entry.1

def range (store : List (K × V)) (first last : Bound K) (reversed : Bool) : List (K × V) :=
  if reversed then descend store last first else ascend store first last

variable {α : Type}

theorem takeWhile_eq_filter {elements : List α} {keep : α → Bool}
    (closed : elements.Pairwise fun earlier later => keep later = true → keep earlier = true) :
    elements.takeWhile keep = elements.filter keep := by
  induction elements with
  | nil => rfl
  | cons first rest ih =>
      rw [List.pairwise_cons] at closed
      by_cases kept : keep first = true
      · rw [List.takeWhile_cons_of_pos kept, List.filter_cons_of_pos kept, ih closed.2]
      · rw [List.takeWhile_cons_of_neg kept, List.filter_cons_of_neg kept]
        symm
        apply List.filter_eq_nil_iff.mpr
        exact fun later listed keeps => kept (closed.1 later listed keeps)

theorem dropWhile_eq_filter {elements : List α} {drop : α → Bool}
    (closed : elements.Pairwise fun earlier later => drop later = true → drop earlier = true) :
    elements.dropWhile drop = elements.filter fun element => !drop element := by
  induction elements with
  | nil => rfl
  | cons first rest ih =>
      rw [List.pairwise_cons] at closed
      by_cases dropped : drop first = true
      · rw [List.dropWhile_cons_of_pos dropped, List.filter_cons_of_neg (by simp [dropped]),
          ih closed.2]
      · rw [List.dropWhile_cons_of_neg dropped]
        symm
        apply List.filter_eq_self.mpr
        intro element listed
        rcases List.mem_cons.mp listed with rfl | later
        · simp [dropped]
        · have kept : drop element ≠ true := fun drops => dropped (closed.1 element later drops)
          simp [kept]

theorem ascend_eq {store : List (K × V)}
    (sorted : store.Pairwise fun earlier later => earlier.1 < later.1) (start stop : Bound K) :
    ascend store start stop =
      store.filter fun entry => start.above entry.1 && stop.below entry.1 := by
  have started : (match start.key with
      | some key => store.filter fun entry : K × V => key ≤ entry.1
      | none => store).dropWhile (fun entry => start.excludes entry.1) =
      store.filter fun entry => start.above entry.1 := by
    cases start with
    | unbounded =>
        simp only [Bound.key, Bound.excludes, Bound.above, List.filter_true]
        cases store <;> rfl
    | included key =>
        simp only [Bound.key, Bound.excludes, Bound.above]
        cases store.filter fun entry => key ≤ entry.1 <;> rfl
    | excluded key =>
        simp only [Bound.key, Bound.excludes, Bound.above]
        rw [dropWhile_eq_filter, List.filter_filter]
        · apply List.filter_congr
          intro entry _
          rw [Bool.eq_iff_iff]
          simp only [Bool.and_eq_true, Bool.not_eq_true', beq_eq_false_iff_ne, decide_eq_true_eq]
          exact ⟨fun ⟨different, least⟩ => lt_of_le_of_ne least different.symm,
            fun less => ⟨less.ne', less.le⟩⟩
        · refine List.Pairwise.imp_of_mem ?_ (sorted.filter _)
          intro earlier later member _ order drops
          simp only [List.mem_filter, decide_eq_true_eq] at member
          rw [beq_iff_eq] at drops ⊢
          exact absurd (lt_of_lt_of_eq order drops) (not_lt.mpr member.2)
  rw [ascend, started, takeWhile_eq_filter, List.filter_filter]
  · apply List.filter_congr
    intro entry _
    rw [Bool.and_comm]
  · refine (sorted.filter _).imp ?_
    intro earlier later order keeps
    cases stop with
    | unbounded => rfl
    | included key =>
        simp only [Bound.below, decide_eq_true_eq] at keeps ⊢
        exact le_trans order.le keeps
    | excluded key =>
        simp only [Bound.below, decide_eq_true_eq] at keeps ⊢
        exact order.trans keeps

theorem descend_eq {store : List (K × V)}
    (sorted : store.Pairwise fun earlier later => earlier.1 < later.1) (start stop : Bound K) :
    descend store start stop =
      (store.filter fun entry => stop.above entry.1 && start.below entry.1).reverse := by
  have started : (match start.key with
      | some key => (store.filter fun entry : K × V => entry.1 ≤ key).reverse
      | none => store.reverse).dropWhile (fun entry => start.excludes entry.1) =
      (store.filter fun entry => start.below entry.1).reverse := by
    cases start with
    | unbounded =>
        simp only [Bound.key, Bound.excludes, Bound.below, List.filter_true]
        cases store.reverse <;> rfl
    | included key =>
        simp only [Bound.key, Bound.excludes, Bound.below]
        cases (store.filter fun entry => entry.1 ≤ key).reverse <;> rfl
    | excluded key =>
        simp only [Bound.key, Bound.excludes, Bound.below]
        rw [dropWhile_eq_filter, List.filter_reverse, List.filter_filter]
        · congr 1
          apply List.filter_congr
          intro entry _
          rw [Bool.eq_iff_iff]
          simp only [Bool.and_eq_true, Bool.not_eq_true', beq_eq_false_iff_ne, decide_eq_true_eq]
          exact ⟨fun ⟨different, most⟩ => lt_of_le_of_ne most different,
            fun less => ⟨less.ne, less.le⟩⟩
        · rw [List.pairwise_reverse]
          refine List.Pairwise.imp_of_mem ?_ (sorted.filter _)
          intro later earlier _ member order drops
          simp only [List.mem_filter, decide_eq_true_eq] at member
          rw [beq_iff_eq] at drops ⊢
          exact absurd (lt_of_eq_of_lt drops.symm order) (not_lt.mpr member.2)
  rw [descend, started, takeWhile_eq_filter, List.filter_reverse, List.filter_filter]
  rw [List.pairwise_reverse]
  refine (sorted.filter _).imp ?_
  intro later earlier order keeps
  cases stop with
  | unbounded => rfl
  | included key =>
      simp only [Bound.above, decide_eq_true_eq] at keeps ⊢
      exact le_trans keeps order.le
  | excluded key =>
      simp only [Bound.above, decide_eq_true_eq] at keeps ⊢
      exact keeps.trans order

theorem range_eq {store : List (K × V)}
    (sorted : store.Pairwise fun earlier later => earlier.1 < later.1) (first last : Bound K)
    (reversed : Bool) :
    range store first last reversed =
      if reversed then
        (store.filter fun entry => first.above entry.1 && last.below entry.1).reverse
      else store.filter fun entry => first.above entry.1 && last.below entry.1 := by
  cases reversed with
  | true => exact descend_eq sorted last first
  | false => exact ascend_eq sorted first last

end SortedStore
