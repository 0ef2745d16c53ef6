import Mathlib

/-!
Runs of a step function that may fail, as folds in `Except`: how runs compose, and the
induction rules for what holds along a run.
-/

namespace Machine

variable {σ τ ι ε : Type}

theorem bind_ok {first : Except ε σ} {next : σ → Except ε τ} {result : τ} :
    (first >>= next) = .ok result ↔ ∃ value, first = .ok value ∧ next value = .ok result := by
  cases first <;> simp [bind, Except.bind]

theorem bind_error {first : Except ε σ} {next : σ → Except ε τ} {fault : ε} :
    (first >>= next) = .error fault ↔
      first = .error fault ∨ ∃ value, first = .ok value ∧ next value = .error fault := by
  cases first <;> simp [bind, Except.bind]

/-- What holds of the value of a result can be decided when the result is given. -/
instance decidableOk {result : Except ε σ} {property : σ → Prop}
    [∀ value, Decidable (property value)] :
    Decidable (∀ value, result = .ok value → property value) :=
  match result with
  | .error _ => isTrue fun _ impossible => nomatch impossible
  | .ok value => decidable_of_iff (property value)
      ⟨fun holds _ same => Except.ok.inj same ▸ holds, fun holds => holds value rfl⟩

theorem ok_ne_error {value : σ} {fault : ε} : (Except.ok value : Except ε σ) ≠ .error fault := by
  simp

theorem toOption_some {result : Except ε σ} {value : σ} :
    result.toOption = some value ↔ result = .ok value := by
  cases result <;> simp [Except.toOption]

/-- How a result failed, if it did. -/
def failureOf : Except ε σ → Option ε
  | .error fault => some fault
  | .ok _ => none

theorem failureOf_some {result : Except ε σ} {fault : ε} :
    failureOf result = some fault ↔ result = .error fault := by
  cases result <;> simp [failureOf]

theorem run_nil (step : σ → ι → Except ε σ) (start : σ) :
    List.foldlM step start ([] : List ι) = .ok start := rfl

theorem run_cons (step : σ → ι → Except ε σ) (start : σ) (item : ι) (rest : List ι) :
    (item :: rest).foldlM step start = (step start item).bind (rest.foldlM step) := rfl

theorem run_cons_ok {step : σ → ι → Except ε σ} {start final : σ} {item : ι} {rest : List ι} :
    (item :: rest).foldlM step start = .ok final ↔
      ∃ next, step start item = .ok next ∧ rest.foldlM step next = .ok final := by
  rw [run_cons]
  cases step start item <;> simp [Except.bind]

theorem run_append_ok {step : σ → ι → Except ε σ} {start final : σ} {first second : List ι} :
    (first ++ second).foldlM step start = .ok final ↔
      ∃ middle, first.foldlM step start = .ok middle ∧ second.foldlM step middle = .ok final := by
  induction first generalizing start with
  | nil => simp only [List.nil_append, run_nil, Except.ok.injEq, exists_eq_left']
  | cons item rest ih =>
      simp only [List.cons_append, run_cons_ok, ih]
      constructor
      · rintro ⟨next, stepped, middle, reached, finished⟩
        exact ⟨middle, ⟨next, stepped, reached⟩, finished⟩
      · rintro ⟨middle, ⟨next, stepped, reached⟩, finished⟩
        exact ⟨next, stepped, middle, reached, finished⟩

theorem run_induction {step : σ → ι → Except ε σ} (inv : List ι → σ → Prop)
    {start final : σ} {items : List ι} (ran : items.foldlM step start = .ok final)
    (initial : inv [] start)
    (preserved : ∀ past item future state next, past ++ item :: future = items →
      inv past state → step state item = .ok next → inv (past ++ [item]) next) :
    inv items final := by
  suffices general : ∀ past future state, past ++ future = items → inv past state →
      future.foldlM step state = .ok final → inv items final from
    general [] items start rfl initial ran
  intro past future
  induction future generalizing past with
  | nil =>
      intro state split holds finished
      simp only [run_nil, Except.ok.injEq] at finished
      rw [← split, ← finished, List.append_nil]
      exact holds
  | cons item rest ih =>
      intro state split holds finished
      obtain ⟨next, stepped, tail⟩ := run_cons_ok.mp finished
      exact ih (past ++ [item]) next (by simpa using split)
        (preserved past item rest state next split holds stepped) tail

theorem run_error {step : σ → ι → Except ε σ} (inv : List ι → σ → Prop)
    {start : σ} {items : List ι} {fault : ε} (failed : items.foldlM step start = .error fault)
    (initial : inv [] start)
    (preserved : ∀ past item future state next, past ++ item :: future = items →
      inv past state → step state item = .ok next → inv (past ++ [item]) next) :
    ∃ past item future state, past ++ item :: future = items ∧ inv past state ∧
      step state item = .error fault := by
  suffices general : ∀ past future state, past ++ future = items → inv past state →
      future.foldlM step state = .error fault →
      ∃ past item future state, past ++ item :: future = items ∧ inv past state ∧
        step state item = .error fault from
    general [] items start rfl initial failed
  intro past future
  induction future generalizing past with
  | nil =>
      intro state _ _ impossible
      simp only [run_nil, reduceCtorEq] at impossible
  | cons item rest ih =>
      intro state split holds stopped
      rw [run_cons] at stopped
      cases stepped : step state item with
      | error reason =>
          simp only [stepped, Except.bind, Except.error.injEq] at stopped
          exact ⟨past, item, rest, state, split, holds, by rw [stepped, stopped]⟩
      | ok next =>
          simp only [stepped, Except.bind] at stopped
          exact ih (past ++ [item]) next (by simpa using split)
            (preserved past item rest state next split holds stepped) stopped

theorem run_total {step : σ → ι → Except ε σ} {inv : σ → Prop} {start : σ} (items : List ι)
    (initial : inv start)
    (kept : ∀ state item, inv state → ∃ next, step state item = .ok next ∧ inv next) :
    ∃ final, items.foldlM step start = .ok final ∧ inv final := by
  induction items generalizing start with
  | nil => exact ⟨start, rfl, initial⟩
  | cons item rest ih =>
      obtain ⟨next, stepped, holds⟩ := kept start item initial
      obtain ⟨final, ran, reached⟩ := ih holds
      exact ⟨final, run_cons_ok.mpr ⟨next, stepped, ran⟩, reached⟩

theorem run_simulation {step : σ → ι → Except ε σ} {other : τ → ι → Except ε τ}
    (rel : List ι → σ → τ → Prop) {items : List ι} {start : σ} {twin : τ}
    (initial : rel [] start twin)
    (related : ∀ past item future state image, past ++ item :: future = items →
      rel past state image →
      (∃ fault, step state item = .error fault ∧ other image item = .error fault) ∨
      (∃ next nextImage, step state item = .ok next ∧ other image item = .ok nextImage ∧
        rel (past ++ [item]) next nextImage)) :
    (∃ fault, items.foldlM step start = .error fault ∧
      items.foldlM other twin = .error fault) ∨
    (∃ final finalImage, items.foldlM step start = .ok final ∧
      items.foldlM other twin = .ok finalImage ∧ rel items final finalImage) := by
  suffices general : ∀ past future state image, past ++ future = items → rel past state image →
      (∃ fault, future.foldlM step state = .error fault ∧
        future.foldlM other image = .error fault) ∨
      (∃ final finalImage, future.foldlM step state = .ok final ∧
        future.foldlM other image = .ok finalImage ∧ rel items final finalImage) from
    general [] items start twin rfl initial
  intro past future
  induction future generalizing past with
  | nil =>
      intro state image split holds
      rw [List.append_nil] at split
      exact Or.inr ⟨state, image, rfl, rfl, split ▸ holds⟩
  | cons item rest ih =>
      intro state image split holds
      rw [run_cons, run_cons]
      rcases related past item rest state image split holds with
        ⟨fault, failed, failedImage⟩ | ⟨next, nextImage, stepped, steppedImage, kept⟩
      · exact Or.inl ⟨fault, by rw [failed]; rfl, by rw [failedImage]; rfl⟩
      · rw [stepped, steppedImage]
        exact ih (past ++ [item]) next nextImage (by simpa using split) kept

theorem foldl_reordered {step : σ → ι → σ} (inv : σ → Prop) {items others : List ι}
    (perm : items.Perm others) (kept : ∀ state item, inv state → inv (step state item))
    (swap : ∀ state, inv state → ∀ first ∈ items, ∀ second ∈ items,
      step (step state first) second = step (step state second) first)
    {start : σ} (initial : inv start) : items.foldl step start = others.foldl step start := by
  induction perm using List.Perm.recOnSwap' generalizing start with
  | nil => rfl
  | cons item perm ih =>
      rw [List.foldl_cons, List.foldl_cons]
      refine ih ?_ (kept _ _ initial)
      exact fun state holds first member second also =>
        swap state holds first (List.mem_cons_of_mem _ member) second
          (List.mem_cons_of_mem _ also)
  | swap' first second perm ih =>
      simp only [List.foldl_cons]
      rw [swap start initial second (by simp) first (by simp)]
      refine ih ?_ (kept _ _ (kept _ _ initial))
      intro state holds one member other also
      exact swap state holds one (by simp [member]) other (by simp [also])
  | trans perm _ ih later =>
      refine (ih swap initial).trans (later ?_ initial)
      intro state holds one member other also
      exact swap state holds one (perm.symm.subset member) other (perm.symm.subset also)

/-- Every step of a run is allowed in the state that it is taken from. -/
def Along (step : σ → ι → Except ε σ) (allowed : σ → ι → Prop) : σ → List ι → Prop
  | _, [] => True
  | state, item :: rest =>
      allowed state item ∧ ∀ next, step state item = .ok next → Along step allowed next rest

instance Along.decide (step : σ → ι → Except ε σ) (allowed : σ → ι → Prop)
    [∀ state item, Decidable (allowed state item)] :
    (state : σ) → (items : List ι) → Decidable (Along step allowed state items)
  | _, [] => isTrue trivial
  | state, item :: rest =>
      have := fun next => Along.decide step allowed next rest
      inferInstanceAs (Decidable (allowed state item ∧
        ∀ next, step state item = .ok next → Along step allowed next rest))

theorem Along.left {step : σ → ι → Except ε σ} {allowed : σ → ι → Prop} {start : σ}
    {first second : List ι} (along : Along step allowed start (first ++ second)) :
    Along step allowed start first := by
  induction first generalizing start with
  | nil => trivial
  | cons item rest ih => exact ⟨along.1, fun next stepped => ih (along.2 next stepped)⟩

theorem run_along_past {step : σ → ι → Except ε σ} {allowed : σ → ι → Prop}
    (inv : List ι → σ → Prop) {start final : σ} {items : List ι}
    (ran : items.foldlM step start = .ok final) (along : Along step allowed start items)
    (initial : inv [] start)
    (kept : ∀ past item future state next, past ++ item :: future = items → inv past state →
      allowed state item → step state item = .ok next → inv (past ++ [item]) next) :
    inv items final := by
  refine (run_induction (fun past state => inv past state ∧
    ∀ future, past ++ future = items → Along step allowed state future) ran
    ⟨initial, fun future same => by rwa [← same] at along⟩ ?_).1
  rintro past item future state next split ⟨holds, ahead⟩ stepped
  obtain ⟨permitted, later⟩ := ahead _ split
  refine ⟨kept past item future state next split holds permitted stepped, ?_⟩
  intro rest same
  have tail : rest = future := by
    rw [← split, List.append_assoc] at same
    exact (List.cons.inj (List.append_cancel_left same)).2
  exact tail ▸ later next stepped

theorem run_along {step : σ → ι → Except ε σ} {allowed : σ → ι → Prop} {inv : σ → Prop}
    {start final : σ} {items : List ι} (ran : items.foldlM step start = .ok final)
    (along : Along step allowed start items) (initial : inv start)
    (kept : ∀ state item next, inv state → allowed state item → step state item = .ok next →
      inv next) : inv final :=
  run_along_past (fun _ => inv) ran along initial
    fun _ item _ state next _ holds permitted stepped => kept state item next holds permitted stepped

end Machine
