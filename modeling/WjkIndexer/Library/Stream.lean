import WjkIndexer.Library.Machine

/-!
Readers of a sequence of items that is addressed by position: reads that may return fewer items
than asked, and seeks.
-/

namespace Stream

variable {α ρ ε φ : Type}

inductive SeekFrom where
  | start (offset : UInt64)
  | fromEnd (offset : Int)
  | current (offset : Int)
  deriving DecidableEq, Repr

def SeekFrom.resolve (position size : Nat) : SeekFrom → Int
  | .start offset => offset.toNat
  | .fromEnd offset => size + offset
  | .current offset => position + offset

/-- The calls of a reader. Each returns a result and the reader after it, or panics. -/
structure Source (α ρ ε φ : Type) where
  read : ρ → Nat → Except φ (Except ε (List α) × ρ)
  seek : ρ → SeekFrom → Except φ (Except ε UInt64 × ρ)

/-- A reader of `items`: a read returns a piece from its position on and moves past it, a seek
returns its new position, and a call that fails leaves it where it is. -/
structure Reads (source : Source α ρ ε φ) (items : List α) (position : ρ → Nat)
    (valid : ρ → Prop) : Prop where
  answered : ∀ reader size, valid reader → ∃ answer, source.read reader size = .ok answer
  piece : ∀ reader size piece next, valid reader →
    source.read reader size = .ok (.ok piece, next) →
    valid next ∧ piece.length ≤ size ∧ piece <+: items.drop (position reader) ∧
      position next = position reader + piece.length
  unread : ∀ reader size error next, valid reader →
    source.read reader size = .ok (.error error, next) →
    valid next ∧ position next = position reader
  sought : ∀ reader target, valid reader → ∃ answer, source.seek reader target = .ok answer
  moved : ∀ reader target place next, valid reader →
    source.seek reader target = .ok (.ok place, next) → valid next ∧ position next = place.toNat
  unmoved : ∀ reader target error next, valid reader →
    source.seek reader target = .ok (.error error, next) →
    valid next ∧ position next = position reader

inductive Call where
  | read (size : Nat)
  | seek (target : SeekFrom)
  deriving DecidableEq, Repr

structure Delivery (α : Type) where
  position : Nat
  items : List α
  deriving DecidableEq, Repr

structure Session (α ρ : Type) where
  reader : ρ
  delivered : List (Delivery α) := []

def Session.call (source : Source α ρ ε φ) (position : ρ → Nat) (session : Session α ρ) :
    Call → Except φ (Session α ρ)
  | .read size => do
      match ← source.read session.reader size with
      | (.ok items, reader) =>
          let delivery : Delivery α := { position := position session.reader, items }
          .ok { reader, delivered := session.delivered ++ [delivery] }
      | (.error _, reader) => .ok { session with reader }
  | .seek target => do
      let (_, reader) ← source.seek session.reader target
      .ok { session with reader }

variable {source : Source α ρ ε φ} {items : List α} {position : ρ → Nat} {valid : ρ → Prop}

structure Session.Faithful (items : List α) (valid : ρ → Prop) (session : Session α ρ) : Prop where
  valid : valid session.reader
  pieces : ∀ delivery ∈ session.delivered, delivery.items <+: items.drop delivery.position

theorem Reads.call_faithful (reads : Reads source items position valid) {session : Session α ρ}
    (faithful : session.Faithful items valid) (call : Call) :
    ∃ next, session.call source position call = .ok next ∧ next.Faithful items valid := by
  cases call with
  | read size =>
      obtain ⟨⟨result, reader⟩, answered⟩ := reads.answered _ size faithful.valid
      cases result with
      | ok piece =>
          obtain ⟨kept, _, inside, _⟩ := reads.piece _ _ _ _ faithful.valid answered
          refine ⟨_, by rw [Session.call, answered]; rfl, kept, ?_⟩
          intro delivery listed
          rcases List.mem_append.mp listed with earlier | last
          · exact faithful.pieces delivery earlier
          · rw [List.mem_singleton.mp last]
            exact inside
      | error error =>
          obtain ⟨kept, _⟩ := reads.unread _ _ _ _ faithful.valid answered
          refine ⟨{ session with reader }, ?_, kept, faithful.pieces⟩
          rw [Session.call, answered]
          rfl
  | seek target =>
      obtain ⟨⟨result, reader⟩, answered⟩ := reads.sought _ target faithful.valid
      refine ⟨{ session with reader }, by rw [Session.call, answered]; rfl, ?_, faithful.pieces⟩
      cases result with
      | ok place => exact (reads.moved _ _ _ _ faithful.valid answered).1
      | error error => exact (reads.unmoved _ _ _ _ faithful.valid answered).1

theorem Reads.calls_faithful (reads : Reads source items position valid) {session : Session α ρ}
    (faithful : session.Faithful items valid) (calls : List Call) :
    ∃ final, calls.foldlM (Session.call source position) session = .ok final ∧
      final.Faithful items valid :=
  Machine.run_total calls faithful fun _ call kept => reads.call_faithful kept call

def Delivery.through (image : Nat → List α → List α) (delivery : Delivery α) : Delivery α :=
  { delivery with items := image delivery.position delivery.items }

/-- A reader that answers every call as another one does, with an image of what is read. -/
structure Mirrors {σ : Type} (source : Source α ρ ε φ) (mirror : Source α σ ε φ)
    (image : Nat → List α → List α) (position : ρ → Nat) (related : ρ → σ → Prop) : Prop where
  read : ∀ reader twin size result next, related reader twin →
    source.read reader size = .ok (result, next) →
    ∃ after, mirror.read twin size = .ok (result.map (image (position reader)), after) ∧
      related next after
  seek : ∀ reader twin target result next, related reader twin →
    source.seek reader target = .ok (result, next) →
    ∃ after, mirror.seek twin target = .ok (result, after) ∧ related next after

section Mirrors

variable {σ : Type} {mirror : Source α σ ε φ} {image : Nat → List α → List α}
  {related : ρ → σ → Prop} {other : σ → Nat}

theorem Mirrors.call_delivers (mirrors : Mirrors source mirror image position related)
    (counted : ∀ reader twin, related reader twin → other twin = position reader)
    {session next : Session α ρ} {twin : Session α σ} (start : related session.reader twin.reader)
    (told : twin.delivered = session.delivered.map (Delivery.through image)) {call : Call}
    (called : session.call source position call = .ok next) :
    ∃ after, twin.call mirror other call = .ok after ∧ related next.reader after.reader ∧
      after.delivered = next.delivered.map (Delivery.through image) := by
  cases call with
  | read size =>
      cases answered : source.read session.reader size with
      | error fault =>
          rw [Session.call, answered] at called
          cases called
      | ok answer =>
          obtain ⟨result, reader⟩ := answer
          obtain ⟨after, mirrored, kept⟩ := mirrors.read _ _ _ _ _ start answered
          rw [Session.call, answered] at called
          cases result with
          | error error =>
              cases called
              exact ⟨{ twin with reader := after }, by rw [Session.call, mirrored]; rfl, kept, told⟩
          | ok piece =>
              cases called
              refine ⟨_, by rw [Session.call, mirrored]; rfl, kept, ?_⟩
              rw [told, counted _ _ start, List.map_append]
              rfl
  | seek target =>
      cases answered : source.seek session.reader target with
      | error fault =>
          rw [Session.call, answered] at called
          cases called
      | ok answer =>
          obtain ⟨result, reader⟩ := answer
          obtain ⟨after, mirrored, kept⟩ := mirrors.seek _ _ _ _ _ start answered
          rw [Session.call, answered] at called
          cases called
          exact ⟨{ twin with reader := after }, by rw [Session.call, mirrored]; rfl, kept, told⟩

theorem Mirrors.calls_deliver (mirrors : Mirrors source mirror image position related)
    (counted : ∀ reader twin, related reader twin → other twin = position reader)
    {session final : Session α ρ} {twin : Session α σ} (start : related session.reader twin.reader)
    (told : twin.delivered = session.delivered.map (Delivery.through image)) {calls : List Call}
    (ran : calls.foldlM (Session.call source position) session = .ok final) :
    ∃ last, calls.foldlM (Session.call mirror other) twin = .ok last ∧
      related final.reader last.reader ∧
      last.delivered = final.delivered.map (Delivery.through image) := by
  induction calls generalizing session twin with
  | nil =>
      cases ran
      exact ⟨twin, rfl, start, told⟩
  | cons call rest ih =>
      obtain ⟨next, called, later⟩ := Machine.run_cons_ok.mp ran
      obtain ⟨after, twinCalled, kept, same⟩ := mirrors.call_delivers counted start told called
      obtain ⟨last, ended, reached⟩ := ih kept same later
      exact ⟨last, Machine.run_cons_ok.mpr ⟨after, twinCalled, ended⟩, reached⟩

end Mirrors

end Stream
