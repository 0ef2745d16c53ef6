import WjkIndexer.Chain.Types
import WjkIndexer.Library.Stream

/-!
The reader of an encrypted block file: it counts its position beside the reader that it wraps, and
masks each byte with the key at that position.
-/

namespace WjkIndexer.Blk

open Stream

inductive XorPanic where
  -- `attempt to calculate the remainder with a divisor of zero`
  | remainderByZero
  deriving DecidableEq, Repr

/-- The bytes of a file, whose size is a `u64`. -/
structure FileContent where
  bytes : Bytes
  fits : bytes.length < 2 ^ 64

structure XorReader (ρ : Type) where
  reader : ρ
  xorKey : Option Bytes
  absolutePos : Nat
  deriving DecidableEq, Repr

variable {ρ ε : Type}

/-- The loop of `read`, from the byte at `index` of the buffer on. -/
def xorBytes (xorKey : Bytes) (absolutePos : Nat) : Nat → Bytes → Except XorPanic Bytes
  | _, [] => .ok []
  | index, byte :: rest =>
      if nonempty : 0 < xorKey.length then do
        let place := (index + absolutePos) % 2 ^ 64 % xorKey.length
        let rest ← xorBytes xorKey absolutePos (index + 1) rest
        .ok ((byte ^^^ xorKey.get ⟨place, Nat.mod_lt _ nonempty⟩) :: rest)
      else .error .remainderByZero

namespace XorReader

def new (reader : ρ) (xorKey : Option Bytes) : XorReader ρ where
  reader := reader
  xorKey := xorKey
  absolutePos := 0

def read (source : Source UInt8 ρ ε XorPanic) (self : XorReader ρ) (size : Nat) :
    Except XorPanic (Except ε Bytes × XorReader ρ) := do
  match ← source.read self.reader size with
  | (.error error, reader) => .ok (.error error, { self with reader })
  | (.ok buf, reader) =>
      let buf ← match self.xorKey with
        | none => .ok buf
        | some xorKey => xorBytes xorKey self.absolutePos 0 buf
      .ok (.ok buf, { self with
        reader
        absolutePos := (self.absolutePos + buf.length) % 2 ^ 64 })

def seek (source : Source UInt8 ρ ε XorPanic) (self : XorReader ρ) (target : SeekFrom) :
    Except XorPanic (Except ε UInt64 × XorReader ρ) := do
  match ← source.seek self.reader target with
  | (.error error, reader) => .ok (.error error, { self with reader })
  | (.ok place, reader) => .ok (.ok place, { self with reader, absolutePos := place.toNat })

def source (source : Source UInt8 ρ ε XorPanic) : Source UInt8 (XorReader ρ) ε XorPanic where
  read := read source
  seek := seek source

end XorReader

def maskedFrom (xorKey : Bytes) : Nat → Bytes → Bytes
  | _, [] => []
  | position, byte :: rest =>
      (byte ^^^ xorKey.getD (position % xorKey.length) 0) :: maskedFrom xorKey (position + 1) rest

section maskedFrom

variable {xorKey : Bytes} {position : Nat}

theorem length_maskedFrom (xorKey : Bytes) (position : Nat) (bytes : Bytes) :
    (maskedFrom xorKey position bytes).length = bytes.length := by
  induction bytes generalizing position with
  | nil => rfl
  | cons byte rest ih => rw [maskedFrom, List.length_cons, List.length_cons, ih]

theorem getElem?_maskedFrom (bytes : Bytes) (index : Nat) :
    (maskedFrom xorKey position bytes)[index]? =
      bytes[index]?.map (· ^^^ xorKey.getD ((position + index) % xorKey.length) 0) := by
  induction index generalizing position bytes with
  | zero => cases bytes <;> rfl
  | succ index ih =>
      cases bytes with
      | nil => rfl
      | cons byte rest =>
          have next : position + 1 + index = position + (index + 1) := by omega
          rw [maskedFrom, List.getElem?_cons_succ, List.getElem?_cons_succ, ih, next]

end maskedFrom

theorem xorBytes_masked {xorKey : Bytes} (nonempty : xorKey ≠ []) {absolutePos index : Nat}
    {bytes : Bytes} (bounded : index + absolutePos + bytes.length ≤ 2 ^ 64) :
    xorBytes xorKey absolutePos index bytes =
      .ok (maskedFrom xorKey (index + absolutePos) bytes) := by
  induction bytes generalizing index with
  | nil => rfl
  | cons byte rest ih =>
      have positive : 0 < xorKey.length := List.length_pos_of_ne_nil nonempty
      rw [List.length_cons] at bounded
      have place : (index + absolutePos) % 2 ^ 64 = index + absolutePos :=
        Nat.mod_eq_of_lt (by omega)
      have next : index + 1 + absolutePos = index + absolutePos + 1 := by omega
      have later := @ih (index + 1) (by omega)
      rw [xorBytes, dif_pos positive, later, next]
      simp only [place, maskedFrom]
      rw [List.getD_eq_getElem _ _ (Nat.mod_lt _ positive)]
      rfl

namespace XorReader

variable {source : Source UInt8 ρ ε XorPanic} {file : FileContent} {xorKey : Bytes}
  {position : ρ → Nat} {valid : ρ → Prop} {wrapper : XorReader ρ}

structure Aligned (xorKey : Bytes) (position : ρ → Nat) (valid : ρ → Prop)
    (wrapper : XorReader ρ) : Prop where
  xorKey : wrapper.xorKey = some xorKey
  valid : valid wrapper.reader
  absolutePos : wrapper.absolutePos = position wrapper.reader
  fits : wrapper.absolutePos < 2 ^ 64

theorem Aligned.failed (aligned : Aligned xorKey position valid wrapper) {reader : ρ}
    (kept : valid reader) (still : position reader = position wrapper.reader) :
    Aligned xorKey position valid { wrapper with reader } where
  xorKey := aligned.xorKey
  valid := kept
  absolutePos := aligned.absolutePos.trans still.symm
  fits := aligned.fits

theorem read_piece (reads : Reads source file.bytes position valid) (nonempty : xorKey ≠ [])
    (aligned : Aligned xorKey position valid wrapper) {size : Nat} {piece : Bytes} {reader : ρ}
    (answered : source.read wrapper.reader size = .ok (.ok piece, reader)) :
    ∃ next, wrapper.read source size =
        .ok (.ok (maskedFrom xorKey (position wrapper.reader) piece), next) ∧
      next.reader = reader ∧ Aligned xorKey position valid next := by
  obtain ⟨kept, _, inside, moved⟩ := reads.piece _ _ _ _ aligned.valid answered
  have fits : wrapper.absolutePos + piece.length < 2 ^ 64 := by
    have short := inside.length_le
    have bound := file.fits
    have counted := aligned.absolutePos
    have small := aligned.fits
    rw [List.length_drop] at short
    omega
  have masked : xorBytes xorKey wrapper.absolutePos 0 piece =
      .ok (maskedFrom xorKey (position wrapper.reader) piece) := by
    rw [xorBytes_masked nonempty (by omega), Nat.zero_add, aligned.absolutePos]
  refine ⟨{ wrapper with reader, absolutePos := wrapper.absolutePos + piece.length }, ?_, rfl, {
    xorKey := aligned.xorKey
    valid := kept
    absolutePos := ?_
    fits := fits }⟩
  · rw [read, answered]
    simp only [bind, Except.bind, aligned.xorKey, masked, length_maskedFrom,
      Nat.mod_eq_of_lt fits]
  · rw [moved, aligned.absolutePos]

theorem read_error {size : Nat} {error : ε} {reader : ρ}
    (answered : source.read wrapper.reader size = .ok (.error error, reader)) :
    wrapper.read source size = .ok (.error error, { wrapper with reader }) := by
  rw [read, answered]
  rfl

theorem seek_eq {target : SeekFrom} {result : Except ε UInt64} {reader : ρ}
    (answered : source.seek wrapper.reader target = .ok (result, reader)) :
    wrapper.seek source target = .ok (result, {
      wrapper with
      reader
      absolutePos := result.toOption.elim wrapper.absolutePos UInt64.toNat }) := by
  rw [seek, answered]
  cases result <;> rfl

theorem mirrors_masked (reads : Reads source file.bytes position valid) (nonempty : xorKey ≠ []) :
    Mirrors source (XorReader.source source) (maskedFrom xorKey) position
      (fun reader wrapper => wrapper.reader = reader ∧ Aligned xorKey position valid wrapper) where
  read reader wrapper size result next related answered := by
    obtain ⟨rfl, aligned⟩ := related
    cases result with
    | ok piece =>
        obtain ⟨after, returned, same, kept⟩ := read_piece reads nonempty aligned answered
        exact ⟨after, returned, same, kept⟩
    | error error =>
        obtain ⟨kept, still⟩ := reads.unread _ _ _ _ aligned.valid answered
        exact ⟨_, read_error answered, rfl, aligned.failed kept still⟩
  seek reader wrapper target result next related answered := by
    obtain ⟨rfl, aligned⟩ := related
    refine ⟨_, seek_eq answered, rfl, ?_⟩
    cases result with
    | ok place =>
        obtain ⟨kept, there⟩ := reads.moved _ _ _ _ aligned.valid answered
        exact ⟨aligned.xorKey, kept, there.symm, place.toNat_lt⟩
    | error error =>
        obtain ⟨kept, still⟩ := reads.unmoved _ _ _ _ aligned.valid answered
        exact aligned.failed kept still

/-- Whatever is called on the reader of a file that was opened, no call panics, every read delivers
as many bytes as the same calls on the wrapped reader do, at the position where that reader is, and
each of them is the byte of its position, masked with the key of that position. -/
theorem delivered_masked {reader : ρ} (reads : Reads source file.bytes position valid)
    (nonempty : xorKey ≠ []) (opened : valid reader) (start : position reader = 0)
    (calls : List Call) :
    ∃ (plain : Session UInt8 ρ) (session : Session UInt8 (XorReader ρ)),
      calls.foldlM (Session.call source position) { reader } = .ok plain ∧
      calls.foldlM (Session.call (XorReader.source source) XorReader.absolutePos)
        { reader := XorReader.new reader (some xorKey) } = .ok session ∧
      session.reader.reader = plain.reader ∧
      session.reader.absolutePos = position plain.reader ∧
      List.Forall₂ (fun stored delivery => delivery.position = stored.position ∧
        delivery.items.length = stored.items.length) plain.delivered session.delivered ∧
      ∀ delivery ∈ session.delivered, ∀ index byte, delivery.items[index]? = some byte →
        ∃ stored mask, file.bytes[delivery.position + index]? = some stored ∧
          xorKey[(delivery.position + index) % xorKey.length]? = some mask ∧
          byte = stored ^^^ mask := by
  have aligned : Aligned xorKey position valid (XorReader.new reader (some xorKey)) := {
    xorKey := rfl
    valid := opened
    absolutePos := start.symm
    fits := Nat.two_pow_pos 64 }
  have nothing : Session.Faithful file.bytes valid { reader := reader } :=
    ⟨opened, fun _ impossible => (List.not_mem_nil impossible).elim⟩
  obtain ⟨plain, ran, faithful⟩ := reads.calls_faithful nothing calls
  have counted : ∀ (inner : ρ) (wrapper : XorReader ρ),
      wrapper.reader = inner ∧ Aligned xorKey position valid wrapper →
        wrapper.absolutePos = position inner :=
    fun _ _ related => related.1 ▸ related.2.absolutePos
  let fresh : Session UInt8 (XorReader ρ) := { reader := XorReader.new reader (some xorKey) }
  have begun : fresh.reader.reader = reader ∧ Aligned xorKey position valid fresh.reader :=
    ⟨rfl, aligned⟩
  obtain ⟨session, mirrored, ⟨same, kept⟩, told⟩ :=
    (mirrors_masked reads nonempty).calls_deliver counted begun rfl ran
  refine ⟨plain, session, ran, mirrored, same, same ▸ kept.absolutePos, ?_, ?_⟩
  · rw [told, List.forall₂_map_right_iff, List.forall₂_same]
    exact fun delivery _ => ⟨rfl, length_maskedFrom _ _ _⟩
  · rw [told]
    intro delivery listed index byte found
    obtain ⟨piece, read, rfl⟩ := List.mem_map.mp listed
    change (maskedFrom xorKey piece.position piece.items)[index]? = some byte at found
    rw [getElem?_maskedFrom, Option.map_eq_some_iff] at found
    obtain ⟨stored, there, rfl⟩ := found
    have whole : file.bytes[piece.position + index]? = some stored := by
      obtain ⟨bound, rfl⟩ := List.getElem?_eq_some_iff.mp there
      rw [← List.getElem?_drop]
      exact List.prefix_iff_getElem?.mp (faithful.pieces piece read) index bound
    have inside : (piece.position + index) % xorKey.length < xorKey.length :=
      Nat.mod_lt _ (List.length_pos_of_ne_nil nonempty)
    refine ⟨stored, _, whole, List.getElem?_eq_getElem inside, ?_⟩
    rw [List.getD_eq_getElem _ _ inside]

end XorReader

namespace Sample

def piecewise (file : Bytes) : Source UInt8 (Nat × List Nat) Unit XorPanic where
  read reader size :=
    let piece := (file.drop reader.1).take (min size (reader.2.headD size))
    .ok (.ok piece, (reader.1 + piece.length, reader.2.tail))
  seek reader target :=
    let place := target.resolve reader.1 file.length
    if 0 ≤ place ∧ place < 2 ^ 63 then
      .ok (.ok (UInt64.ofNat place.toNat), (place.toNat, reader.2))
    else .ok (.error (), reader)

theorem piecewise_reads (file : Bytes) :
    Reads (piecewise file) file Prod.fst fun _ => True where
  answered reader size _ := ⟨_, rfl⟩
  piece reader size piece next _ returned := by
    cases returned
    refine ⟨trivial, ?_, List.take_prefix _ _, rfl⟩
    rw [List.length_take]
    omega
  unread reader size error next _ returned := by cases returned
  sought reader target _ := by
    unfold piecewise
    dsimp only
    split <;> exact ⟨_, rfl⟩
  moved reader target place next _ returned := by
    unfold piecewise at returned
    dsimp only at returned
    split at returned
    · rename_i bounds
      cases returned
      have small : (target.resolve reader.1 file.length).toNat < 2 ^ 64 := by omega
      exact ⟨trivial, (UInt64.toNat_ofNat_of_lt small).symm⟩
    · cases returned
  unmoved reader target error next _ returned := by
    unfold piecewise at returned
    dsimp only at returned
    split at returned
    · cases returned
    · cases returned
      exact ⟨trivial, rfl⟩

def encrypted : FileContent where
  bytes := [10, 20, 30, 40, 50, 60, 70]
  fits := by decide

def calls : List Call :=
  [.read 4, .seek (.current (-9)), .read 3, .seek (.fromEnd (-2)), .read 8, .read 1]

end Sample

theorem encrypted_masked :
    ∃ (plain : Session UInt8 (Nat × List Nat)) (session : Session UInt8 (XorReader (Nat × List Nat))),
      Sample.calls.foldlM (Session.call (Sample.piecewise Sample.encrypted.bytes) Prod.fst)
        { reader := (0, [3, 1]) } = .ok plain ∧
      Sample.calls.foldlM (Session.call (XorReader.source (Sample.piecewise
          Sample.encrypted.bytes)) XorReader.absolutePos)
        { reader := XorReader.new (0, [3, 1]) (some [1, 2, 4]) } = .ok session ∧
      plain.delivered = [⟨0, [10, 20, 30]⟩, ⟨3, [40]⟩, ⟨5, [60, 70]⟩, ⟨7, []⟩] ∧
      session.delivered = [⟨0, [11, 22, 26]⟩, ⟨3, [41]⟩, ⟨5, [56, 71]⟩, ⟨7, []⟩] ∧
      ∀ delivery ∈ session.delivered, ∀ index byte, delivery.items[index]? = some byte →
        ∃ stored mask, Sample.encrypted.bytes[delivery.position + index]? = some stored ∧
          ([1, 2, 4] : Bytes)[(delivery.position + index) % 3]? = some mask ∧
          byte = stored ^^^ mask := by
  obtain ⟨plain, session, ran, mirrored, _, _, _, masked⟩ :=
    @XorReader.delivered_masked _ _ _ _ [1, 2, 4] _ _ (0, [3, 1])
      (Sample.piecewise_reads Sample.encrypted.bytes) (List.cons_ne_nil _ _) trivial rfl
      Sample.calls
  have stored : (Except.ok plain : Except XorPanic _).map Session.delivered =
      .ok [⟨0, [10, 20, 30]⟩, ⟨3, [40]⟩, ⟨5, [60, 70]⟩, ⟨7, []⟩] := by
    rw [← ran]
    decide +kernel
  have delivered : (Except.ok session : Except XorPanic _).map Session.delivered =
      .ok [⟨0, [11, 22, 26]⟩, ⟨3, [41]⟩, ⟨5, [56, 71]⟩, ⟨7, []⟩] := by
    rw [← mirrored]
    decide +kernel
  exact ⟨plain, session, ran, mirrored, Except.ok.inj stored, Except.ok.inj delivered, masked⟩

end WjkIndexer.Blk
