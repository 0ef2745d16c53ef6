import WjkIndexer.Library.Scan

/-!
Reading a list in pages: every page but the first is asked for with the cursor of the last element
of the page before it, and an empty page ends the reading.
-/

namespace Paging

variable {α C ε : Type}

inductive Reads (page : Option C → Except ε (List α)) (cursor : α → C) :
    Option C → List α → Prop where
  | stop {offset : Option C} (empty : page offset = .ok []) : Reads page cursor offset []
  | next {offset : Option C} {elements rest : List α} {last : α}
      (read : page offset = .ok elements) (ends : elements.getLast? = some last)
      (later : Reads page cursor (some (cursor last)) rest) :
      Reads page cursor offset (elements ++ rest)

variable {page : Option C → Except ε (List α)} {cursor : α → C}

theorem Reads.unique {offset : Option C} {first second : List α}
    (left : Reads page cursor offset first) (right : Reads page cursor offset second) :
    first = second := by
  induction left generalizing second with
  | stop empty =>
      cases right with
      | stop _ => rfl
      | next read ends _ =>
          rw [empty] at read
          cases read
          cases ends
  | next read ends later ih =>
      cases right with
      | stop empty =>
          rw [empty] at read
          cases read
          cases ends
      | next again finish rest =>
          rw [read] at again
          cases again
          rw [ends] at finish
          cases finish
          rw [ih rest]

/-- A part of a list ends a page: it is a whole number of pages, or the whole list. -/
def EndsPage (limit : Nat) (front : List α) (last : α) (rest : List α) : Prop :=
  limit ∣ (front ++ [last]).length ∨ rest = []

theorem take_page {limit : Nat} (positive : 0 < limit) {source : List α} (some : source ≠ []) :
    ∃ init last, source.take limit = init ++ [last] ∧
      source = init ++ last :: source.drop limit := by
  have nonempty : source.take limit ≠ [] := by
    intro empty
    rcases List.take_eq_nil_iff.mp empty with none | none
    · omega
    · exact some none
  refine ⟨(source.take limit).dropLast, (source.take limit).getLast nonempty, ?_, ?_⟩
  · rw [List.dropLast_append_getLast]
  · conv_lhs => rw [← List.take_append_drop limit source,
      ← List.dropLast_append_getLast nonempty]
    rw [List.append_assoc]
    rfl

theorem endsPage_cases {limit : Nat} {rest init inner tail : List α} {last ending : α}
    (cut : rest.take limit = init ++ [last]) (shape : rest = init ++ last :: rest.drop limit)
    (split : rest = inner ++ ending :: tail) (ends : EndsPage limit inner ending tail) :
    inner = init ∧ ending = last ∨
      ∃ more, inner = init ++ last :: more ∧ rest.drop limit = more ++ ending :: tail ∧
        EndsPage limit more ending tail := by
  have size : init.length + 1 = min limit rest.length := by
    rw [← List.length_take, cut, List.length_append, List.length_singleton]
  have total : rest.length = inner.length + 1 + tail.length := by
    rw [split, List.length_append, List.length_cons]
    omega
  have both : init ++ last :: rest.drop limit = inner ++ ending :: tail := shape.symm.trans split
  rcases List.append_eq_append_iff.mp both with ⟨more, inside, others⟩ | ⟨more, inside, others⟩
  · cases more with
    | nil =>
        rw [List.nil_append, List.cons.injEq] at others
        rw [List.append_nil] at inside
        exact Or.inl ⟨inside, others.1.symm⟩
    | cons first more =>
        rw [List.cons_append, List.cons.injEq] at others
        obtain ⟨rfl, dropped⟩ := others
        refine Or.inr ⟨more, inside, dropped, ?_⟩
        rcases ends with divides | empty
        · left
          rw [inside, List.append_assoc, List.length_append, List.length_append,
            List.length_cons] at divides
          rw [List.length_append]
          rw [List.length_singleton] at divides ⊢
          rw [inside, List.length_append, List.length_cons] at total
          have full : limit = init.length + 1 := by omega
          have shifted : init.length + (more.length + 1 + 1) = limit + (more.length + 1) := by
            omega
          rw [shifted] at divides
          exact (Nat.dvd_add_right (dvd_refl limit)).mp divides
        · exact Or.inr empty
  · cases more with
    | nil =>
        rw [List.nil_append, List.cons.injEq] at others
        rw [List.append_nil] at inside
        exact Or.inl ⟨inside.symm, others.1⟩
    | cons first more =>
        rw [inside, List.length_append, List.length_cons] at size
        rcases ends with divides | rfl
        · have least := Nat.le_of_dvd (by simp) divides
          rw [List.length_append, List.length_singleton] at least
          omega
        · rw [List.length_nil] at total
          omega

theorem reads_all {limit : Nat} {source : List α} (positive : 0 < limit)
    (opens : page none = .ok (source.take limit))
    (continues : ∀ front last rest, source = front ++ last :: rest →
      EndsPage limit front last rest → page (some (cursor last)) = .ok (rest.take limit)) :
    Reads page cursor none source := by
  suffices general : ∀ count front rest offset, rest.length ≤ count → source = front ++ rest →
      limit ∣ front.length → page offset = .ok (rest.take limit) →
      Reads page cursor offset rest from
    general source.length [] source none (Nat.le_refl _) rfl (dvd_zero limit) opens
  intro count
  induction count with
  | zero =>
      intro front rest offset short _ _ read
      obtain rfl := List.length_eq_zero_iff.mp (Nat.le_zero.mp short)
      rw [List.take_nil] at read
      exact .stop read
  | succ count ih =>
      intro front rest offset short split whole read
      by_cases none : rest = []
      · subst none
        rw [List.take_nil] at read
        exact .stop read
      · obtain ⟨init, last, cut, shape⟩ := take_page positive none
        have length : (init ++ [last]).length = min limit rest.length := by
          rw [← cut, List.length_take]
        have ends : EndsPage limit (front ++ init) last (rest.drop limit) := by
          by_cases full : limit ≤ rest.length
          · left
            rw [List.append_assoc, List.length_append, length, Nat.min_eq_left full]
            exact Nat.dvd_add whole (dvd_refl limit)
          · right
            exact List.drop_eq_nil_iff.mpr (by omega)
        have located : source = (front ++ init) ++ last :: rest.drop limit := by
          rw [List.append_assoc, ← shape]
          exact split
        have onward := continues _ _ _ located ends
        have later : Reads page cursor (some (cursor last)) (rest.drop limit) := by
          rcases ends with divides | empty
          · refine ih (front ++ init ++ [last]) (rest.drop limit) _ ?_ ?_ divides onward
            · rw [List.length_drop]
              have some : 0 < rest.length := List.length_pos_iff.mpr none
              omega
            · rw [List.append_assoc]
              exact located
          · rw [empty] at onward ⊢
            rw [List.take_nil] at onward
            exact .stop onward
        have together := Reads.next read (by rw [cut, List.getLast?_append]; rfl) later
        rw [List.take_append_drop] at together
        exact together

theorem reads_descending {K : Type} [LinearOrder K] {rank : α → K} {source : List α} {limit : Nat}
    (positive : 0 < limit)
    (descending : source.Pairwise fun earlier later => rank later < rank earlier)
    (opens : page none = .ok (source.take limit))
    (continues : ∀ last ∈ source, page (some (cursor last)) =
      .ok ((source.filter fun element => rank element < rank last).take limit)) :
    Reads page cursor none source := by
  refine reads_all positive opens ?_
  intro front last rest split _
  rw [continues last (by simp [split])]
  rw [split, List.pairwise_append, List.pairwise_cons] at descending
  obtain ⟨_, ⟨lower, _⟩, higher⟩ := descending
  have before : front.filter (fun element => rank element < rank last) = [] := by
    apply List.filter_eq_nil_iff.mpr
    intro element listed below
    exact lt_asymm (higher element listed last List.mem_cons_self) (of_decide_eq_true below)
  have after : rest.filter (fun element => rank element < rank last) = rest := by
    apply List.filter_eq_self.mpr
    intro element listed
    exact decide_eq_true (lower element listed)
  rw [split, List.filter_append, before, List.nil_append,
    List.filter_cons_of_neg (by simp), after]

/-! Pages whose cursor names a group of elements: the page after a cursor goes on behind the
first element of its group. -/

section Grouped

variable {K : Type} [LinearOrder K] {rank : α → K} {source : List α} {limit : Nat}

/-- What is left of a list behind the first element of a group. -/
def behind (rank : α → K) (source : List α) (last : α) : List α :=
  (source.filter fun element => rank last ≤ rank element).drop 1

/-- Every page ends with the first element of its group. -/
def Aligned (limit : Nat) (rank : α → K) (source : List α) : Prop :=
  ∀ front last rest, source = front ++ last :: rest → EndsPage limit front last rest →
    ∀ other ∈ front, rank other ≠ rank last

omit [LinearOrder K] in
theorem aligned_map {β : Type} (image : β → α) (elements : List β) :
    Aligned limit rank (elements.map image) ↔ Aligned limit (rank ∘ image) elements := by
  constructor
  · intro aligned front last rest split ends other listed
    refine aligned (front.map image) (image last) (rest.map image) ?_ ?_ _
      (List.mem_map.mpr ⟨other, listed, rfl⟩)
    · rw [split, List.map_append, List.map_cons]
    · rcases ends with divides | empty
      · left
        simpa using divides
      · right
        rw [empty, List.map_nil]
  · intro aligned front last rest split ends other listed
    obtain ⟨before, after, rfl, rfl, tail⟩ := List.map_eq_append_iff.mp split
    obtain ⟨element, others, rfl, rfl, rfl⟩ := List.map_eq_cons_iff.mp tail
    obtain ⟨earlier, member, rfl⟩ := List.mem_map.mp listed
    refine aligned before element others rfl ?_ earlier member
    rcases ends with divides | empty
    · left
      simpa using divides
    · right
      exact List.map_eq_nil_iff.mp empty

theorem behind_split (sorted : source.Pairwise fun earlier later => rank earlier ≤ rank later)
    {front rest : List α} {last : α} (split : source = front ++ last :: rest) :
    ∃ again, behind rank source last = again ++ rest ∧
      again.length = (front.filter fun element => rank last ≤ rank element).length := by
  have kept : (last :: rest).filter (fun element => rank last ≤ rank element) = last :: rest := by
    apply List.filter_eq_self.mpr
    intro element listed
    rw [split, List.pairwise_append] at sorted
    rcases List.mem_cons.mp listed with rfl | later
    · simp
    · exact decide_eq_true ((List.pairwise_cons.mp sorted.2.1).1 element later)
  rw [behind, split, List.filter_append, kept]
  cases front.filter fun element => rank last ≤ rank element with
  | nil => exact ⟨[], rfl, rfl⟩
  | cons first others => exact ⟨others ++ [last], by simp, by simp⟩

theorem filter_front_nil_iff
    (sorted : source.Pairwise fun earlier later => rank earlier ≤ rank later)
    {front rest : List α} {last : α} (split : source = front ++ last :: rest) :
    front.filter (fun element => rank last ≤ rank element) = [] ↔
      ∀ other ∈ front, rank other ≠ rank last := by
  rw [List.filter_eq_nil_iff]
  rw [split, List.pairwise_append] at sorted
  constructor
  · intro below other listed same
    exact below other listed (decide_eq_true same.ge)
  · intro different other listed after
    have before := sorted.2.2 other listed last List.mem_cons_self
    exact different other listed (le_antisymm before (of_decide_eq_true after))

theorem behind_suffix (sorted : source.Pairwise fun earlier later => rank earlier ≤ rank later)
    (last : α) : ∃ before, source = before ++ behind rank source last := by
  have below : source.takeWhile (fun element => rank element < rank last) ++
      source.filter (fun element => rank last ≤ rank element) = source := by
    have after : source.dropWhile (fun element => rank element < rank last) =
        source.filter fun element => rank last ≤ rank element := by
      rw [SortedStore.dropWhile_eq_filter]
      · apply List.filter_congr
        intro element _
        rw [← decide_not, decide_eq_decide, not_lt]
      · refine sorted.imp ?_
        intro earlier later order before
        rw [decide_eq_true_eq] at before ⊢
        exact lt_of_le_of_lt order before
    rw [← after, List.takeWhile_append_dropWhile]
  refine ⟨source.takeWhile (fun element => rank element < rank last) ++
    (source.filter fun element => rank last ≤ rank element).take 1, ?_⟩
  rw [behind, List.append_assoc, List.take_append_drop, below]

theorem Reads.length_le (positive : 0 < limit)
    (sorted : source.Pairwise fun earlier later => rank earlier ≤ rank later)
    (continues : ∀ last ∈ source,
      page (some (cursor last)) = .ok ((behind rank source last).take limit))
    {offset : Option C} {read : List α} (reads : Reads page cursor offset read)
    {front rest : List α} (split : source = front ++ rest)
    (opens : page offset = .ok (rest.take limit)) :
    rest.length ≤ read.length ∧
      (read.length = rest.length → ∀ init last tail, rest = init ++ last :: tail →
        EndsPage limit init last tail → ∀ other ∈ front ++ init, rank other ≠ rank last) := by
  induction reads generalizing front rest with
  | stop empty =>
      rw [empty] at opens
      cases rest with
      | nil =>
          refine ⟨Nat.le_refl _, ?_⟩
          intro _ init last tail impossible
          simp at impossible
      | cons first others =>
          obtain ⟨count, rfl⟩ := Nat.exists_eq_succ_of_ne_zero positive.ne'
          cases opens
  | @next offset elements later last elementsRead ends _ ih =>
      rw [elementsRead] at opens
      cases opens
      have nonempty : rest ≠ [] := by
        rintro rfl
        simp at ends
      obtain ⟨init, final, cut, shape⟩ := take_page positive nonempty
      rw [cut, List.getLast?_append] at ends
      cases ends
      have located : source = (front ++ init) ++ final :: rest.drop limit := by
        rw [List.append_assoc, ← shape]
        exact split
      have member : final ∈ source := by
        rw [located]
        simp
      obtain ⟨again, left, count⟩ := behind_split sorted located
      obtain ⟨before, suffix⟩ := behind_suffix sorted final
      have onward := ih suffix (continues final member)
      rw [left, List.length_append] at onward
      have whole : (rest.take limit).length + (rest.drop limit).length = rest.length := by
        rw [← List.length_append, List.take_append_drop]
      rw [List.length_append]
      refine ⟨by omega, ?_⟩
      intro same inner ending tail decomposed pageEnds
      have nothing : again = [] := List.length_eq_zero_iff.mp (by omega)
      have unread : (front ++ init).filter (fun element => rank final ≤ rank element) = [] := by
        rw [← List.length_eq_zero_iff, ← count, nothing, List.length_nil]
      have first := (filter_front_nil_iff sorted located).mp unread
      rw [nothing, List.nil_append] at left
      rcases endsPage_cases cut shape decomposed pageEnds with ⟨rfl, rfl⟩ |
        ⟨more, rfl, remaining, moreEnds⟩
      · exact first
      · have prior : before = front ++ init ++ [final] := by
          rw [left] at suffix
          have joined : before ++ rest.drop limit = front ++ init ++ [final] ++ rest.drop limit := by
            rw [← suffix, List.append_assoc (front ++ init)]
            exact located
          exact List.append_cancel_right joined
        have later := onward.2 (by omega) more ending tail (by rw [nothing]; exact remaining)
          moreEnds
        rw [prior] at later
        intro other listed
        apply later other
        simp only [List.append_assoc, List.cons_append, List.nil_append] at listed ⊢
        exact listed

theorem reads_iff_aligned (positive : 0 < limit)
    (sorted : source.Pairwise fun earlier later => rank earlier ≤ rank later)
    (opens : page none = .ok (source.take limit))
    (continues : ∀ last ∈ source,
      page (some (cursor last)) = .ok ((behind rank source last).take limit)) :
    (Aligned limit rank source → Reads page cursor none source) ∧
      ∀ read, Reads page cursor none read → read.length = source.length →
        Aligned limit rank source := by
  constructor
  · intro aligned
    refine reads_all positive opens ?_
    intro front last rest split ends
    obtain ⟨again, left, count⟩ := behind_split sorted split
    have unread := (filter_front_nil_iff sorted split).mpr (aligned front last rest split ends)
    rw [unread, List.length_nil, List.length_eq_zero_iff] at count
    rw [continues last (by rw [split]; simp), left, count, List.nil_append]
  · intro read reads same front last rest split ends
    have rule := (reads.length_le positive sorted continues (List.nil_append source).symm opens).2
      same front last rest split ends
    rwa [List.nil_append] at rule

theorem Reads.mem (continues : ∀ last ∈ source,
      page (some (cursor last)) = .ok ((behind rank source last).take limit))
    {offset : Option C} {read : List α} (reads : Reads page cursor offset read) {rest : List α}
    (inside : ∀ element ∈ rest, element ∈ source) (opens : page offset = .ok (rest.take limit)) :
    ∀ element ∈ read, element ∈ source := by
  induction reads generalizing rest with
  | stop _ =>
      intro element impossible
      cases impossible
  | next elementsRead ends _ ih =>
      rw [elementsRead] at opens
      cases opens
      have member := inside _ (List.mem_of_mem_take (List.mem_of_getLast? ends))
      intro element listed
      rcases List.mem_append.mp listed with now | later
      · exact inside _ (List.mem_of_mem_take now)
      · refine ih ?_ (continues _ member) element later
        intro other found
        exact List.mem_of_mem_filter (List.mem_of_mem_drop found)

theorem Reads.ends (positive : 0 < limit) {top : K} (continues : ∀ last ∈ source,
      page (some (cursor last)) = .ok ((behind rank source last).take limit))
    {offset : Option C} {read : List α} (reads : Reads page cursor offset read)
    (opens : page offset =
      .ok (((source.filter fun element => top ≤ rank element).drop 1).take limit))
    (bounded : ∀ element ∈ source, rank element ≤ top) :
    (source.filter fun element => top ≤ rank element).drop 1 = [] := by
  induction reads with
  | stop empty =>
      rw [empty] at opens
      cases rest : (source.filter fun element => top ≤ rank element).drop 1 with
      | nil => rfl
      | cons first others =>
          rw [rest] at opens
          obtain ⟨count, rfl⟩ := Nat.exists_eq_succ_of_ne_zero positive.ne'
          cases opens
  | next elementsRead ends _ ih =>
      rw [elementsRead] at opens
      cases opens
      have listed := List.mem_of_mem_drop (List.mem_of_mem_take (List.mem_of_getLast? ends))
      rw [List.mem_filter, decide_eq_true_eq] at listed
      have same := le_antisymm (bounded _ listed.1) listed.2
      apply ih
      rw [continues _ listed.1, behind, same]

theorem Reads.top_once (positive : 0 < limit) {top : K}
    (sorted : source.Pairwise fun earlier later => rank earlier ≤ rank later)
    (continues : ∀ last ∈ source,
      page (some (cursor last)) = .ok ((behind rank source last).take limit))
    {offset : Option C} {read : List α} (reads : Reads page cursor offset read) {front rest : List α}
    (split : source = front ++ rest) (opens : page offset = .ok (rest.take limit))
    (bounded : ∀ element ∈ source, rank element ≤ top) :
    (read.filter fun element => top ≤ rank element).length ≤ 1 := by
  induction reads generalizing front rest with
  | stop _ => simp
  | @next offset elements later last elementsRead ends laterReads ih =>
      rw [elementsRead] at opens
      cases opens
      have listed := List.mem_of_mem_take (List.mem_of_getLast? ends)
      have member : last ∈ source := by
        rw [split]
        exact List.mem_append_right _ listed
      rw [List.filter_append, List.length_append]
      by_cases greatest : top ≤ rank last
      · have same := le_antisymm (bounded last member) greatest
        have onward := continues last member
        rw [behind, same] at onward
        have none := laterReads.ends positive continues onward bounded
        rw [none, List.take_nil] at onward
        have nothing : later = [] := laterReads.unique (.stop onward)
        have few : (source.filter fun element => top ≤ rank element).length ≤ 1 :=
          List.drop_eq_nil_iff.mp none
        have part : (rest.take limit).Sublist source := by
          rw [split]
          exact (List.take_sublist _ _).trans (List.sublist_append_right _ _)
        have fewer := (part.filter fun element => decide (top ≤ rank element)).length_le
        rw [nothing, List.filter_nil, List.length_nil]
        omega
      · have below : (rest.take limit).filter (fun element => top ≤ rank element) = [] := by
          apply List.filter_eq_nil_iff.mpr
          intro element found high
          have order : rank element ≤ rank last := by
            have ordered : (rest.take limit).Pairwise fun earlier later =>
                rank earlier ≤ rank later := by
              rw [split, List.pairwise_append] at sorted
              exact sorted.2.1.sublist (List.take_sublist _ _)
            obtain ⟨init, shape⟩ := List.getLast?_eq_some_iff.mp ends
            rw [shape] at found ordered
            rcases List.mem_append.mp found with before | final
            · exact (List.pairwise_append.mp ordered).2.2 element before last (by simp)
            · rw [List.mem_singleton.mp final]
          exact greatest ((of_decide_eq_true high).trans order)
        obtain ⟨before, suffix⟩ := behind_suffix sorted last
        rw [below, List.length_nil, Nat.zero_add]
        exact ih suffix (continues last member)

end Grouped

end Paging
