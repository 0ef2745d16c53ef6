import WjkIndexer.Library.Utf8
import WjkIndexer.Rest.Ticks

/-!
The spelling of ticks: the tick that is stored for a text, the text it is shown as, and the
texts that share a key.
-/

namespace WjkIndexer

def textBytes (text : String) : Bytes := Utf8.encode text.toList

def bel20Tick (env : Env) (text : String) : Except String OriginalTokenTick :=
  padTickBytes env (textBytes text)

def OriginalTokenTick.display (tick : OriginalTokenTick) : String :=
  Utf8.fromUtf8Lossy (trimTickBytes tick.bytes)

def StatedLength (env : Env) (text : String) : Prop :=
  if env.blockchain = .wojakcoin then
    1 ≤ (textBytes text).length ∧ (textBytes text).length ≤ 8
  else (textBytes text).length = 4

structure ShownAgain (env : Env) (text : String) : Prop where
  accepted : (∃ tick, bel20Tick env text = .ok tick) ↔ StatedLength env text
  shown : ∀ tick, bel20Tick env text = .ok tick → tick.display = text

structure TicksCorrespond (env : Env) (text other : String) : Prop where
  first : ShownAgain env text
  second : ShownAgain env other
  keys : ∀ tick otherTick, bel20Tick env text = .ok tick → bel20Tick env other = .ok otherTick →
    env.lower tick = env.lower otherTick →
    env.lowercase (textBytes text) = env.lowercase (textBytes other)

/-- The text does not end in a zero character, unless it is refused, and on the chains whose
ticks have four bytes it has not fewer. -/
def TickSafe (env : Env) (text : String) : Prop :=
  (text.toList.getLast? = some (Char.ofNat 0) → tickByteLen env < (textBytes text).length) ∧
    (env.blockchain ≠ .wojakcoin → textBytes text ≠ [] → 4 ≤ (textBytes text).length)

variable {env : Env} {text other : String} {tick : OriginalTokenTick}

theorem bel20Tick_ok : bel20Tick env text = .ok tick ↔
    (textBytes text ≠ [] ∧ (textBytes text).length ≤ tickByteLen env) ∧
      tick.bytes = textBytes text ++ List.replicate (8 - (textBytes text).length) 0 := by
  unfold bel20Tick padTickBytes
  split
  · rename_i fits
    simp only [fits, ne_eq, Except.ok.injEq]
    obtain ⟨bytes, size⟩ := tick
    simp [OriginalTokenTick.mk.injEq, eq_comm]
  · rename_i refused
    simp [refused]

theorem accepted_iff : (∃ tick, bel20Tick env text = .ok tick) ↔
    textBytes text ≠ [] ∧ (textBytes text).length ≤ tickByteLen env := by
  constructor
  · rintro ⟨tick, accepted⟩
    exact (bel20Tick_ok.mp accepted).1
  · intro fits
    exact ⟨_, dif_pos fits⟩

theorem trim_accepted (accepted : bel20Tick env text = .ok tick) :
    trimTickBytes tick.bytes = Utf8.encode (text.toList.rdropWhile (· == Char.ofNat 0)) := by
  rw [(bel20Tick_ok.mp accepted).2, trimTickBytes_append]
  exact Utf8.rdropWhile_encode text.toList

theorem rdropWhile_eq_self (chars : List Char) :
    chars.rdropWhile (· == Char.ofNat 0) = chars ↔ chars.getLast? ≠ some (Char.ofNat 0) := by
  rw [List.rdropWhile_eq_self_iff]
  cases chars using List.reverseRecOn with
  | nil => simp
  | append_singleton rest last => simp

theorem display_iff (accepted : bel20Tick env text = .ok tick) :
    tick.display = text ↔ text.toList.getLast? ≠ some (Char.ofNat 0) := by
  rw [OriginalTokenTick.display, trim_accepted accepted, Utf8.fromUtf8Lossy_encode,
    ← rdropWhile_eq_self, ← String.toList_inj, String.toList_ofList]

theorem textBytes_ne_nil {char : Char} (last : text.toList.getLast? = some char) :
    textBytes text ≠ [] := by
  intro none
  obtain ⟨rest, split⟩ := List.getLast?_eq_some_iff.mp last
  rw [textBytes, split, Utf8.encode_append] at none
  simp [Utf8.encode] at none

theorem shownAgain_iff : ShownAgain env text ↔ TickSafe env text := by
  constructor
  · rintro ⟨accepted, shown⟩
    rw [accepted_iff] at accepted
    constructor
    · intro last
      have some := textBytes_ne_nil last
      by_contra short
      obtain ⟨tick, ticked⟩ := accepted_iff.mpr ⟨some, Nat.le_of_not_lt short⟩
      exact (display_iff ticked).mp (shown tick ticked) last
    · intro chain some
      by_contra short
      have stated := accepted.mp ⟨some, by rw [tickByteLen, if_neg chain]; omega⟩
      rw [StatedLength, if_neg chain] at stated
      omega
  · rintro ⟨ended, four⟩
    constructor
    · rw [accepted_iff, StatedLength, tickByteLen]
      split
      · rw [← List.length_pos_iff]
        omega
      · rename_i chain
        constructor
        · rintro ⟨some, short⟩
          have long := four chain some
          omega
        · intro readAsShown
          rw [← List.length_pos_iff]
          omega
    · intro tick accepted
      refine (display_iff accepted).mpr ?_
      intro last
      have long := ended last
      have short := (bel20Tick_ok.mp accepted).1.2
      omega

/-- Texts correspond to ticks one to one exactly when neither ends in a zero character and
neither is shorter than the ticks of its chain. -/
theorem ticks_iff (env : Env) (text other : String) :
    TicksCorrespond env text other ↔ TickSafe env text ∧ TickSafe env other := by
  constructor
  · rintro ⟨first, second, _⟩
    exact ⟨shownAgain_iff.mp first, shownAgain_iff.mp second⟩
  · rintro ⟨first, second⟩
    have trimmed : ∀ {text : String} {tick : OriginalTokenTick}, TickSafe env text →
        bel20Tick env text = .ok tick → trimTickBytes tick.bytes = textBytes text := by
      intro text tick safe accepted
      have short := (bel20Tick_ok.mp accepted).1.2
      have kept : text.toList.getLast? ≠ some (Char.ofNat 0) := by
        intro last
        have long := safe.1 last
        omega
      rw [trim_accepted accepted, (rdropWhile_eq_self _).mpr kept, textBytes]
    refine ⟨shownAgain_iff.mpr first, shownAgain_iff.mpr second, ?_⟩
    intro tick otherTick accepted otherAccepted same
    rw [Env.lower, Env.lower, trimmed first accepted, trimmed second otherAccepted] at same
    exact same

/-- A text of two bytes is accepted where ticks have four, and a text with a zero character
at its end has the tick and the key of the text without it, and is shown as that one. -/
theorem short_accepted :
    (∃ tick, bel20Tick (.ofRecords .bellscoin .bellscoin []) "ab" = .ok tick) ∧
      ¬TicksCorrespond (.ofRecords .bellscoin .bellscoin []) "ab" "ab" ∧
      bel20Tick Sample.env "ab\x00" = bel20Tick Sample.env "ab" ∧
      Sample.env.lowercase (textBytes "ab\x00") ≠ Sample.env.lowercase (textBytes "ab") ∧
      ¬TicksCorrespond Sample.env "ab\x00" "ab" := by
  have short : ¬TickSafe (.ofRecords .bellscoin .bellscoin []) "ab" := by
    unfold TickSafe
    decide +kernel
  have ended : ¬TickSafe Sample.env "ab\x00" := by
    unfold TickSafe
    decide +kernel
  refine ⟨accepted_iff.mpr (by decide +kernel), ?_, by decide +kernel, by decide +kernel, ?_⟩
  · exact fun correspond => short (shownAgain_iff.mp correspond.first)
  · exact fun correspond => ended (shownAgain_iff.mp correspond.first)

end WjkIndexer
