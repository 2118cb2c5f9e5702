import ProkaKernel.KernelMap
import ProkaKernel.Overflow
import ProkaKernel.Prog

namespace ProkaKernel
open Paging (initprtLength)

/-- The signed number of 64 bits with the same bits. -/
def wrapI64 (value : Int) : Int := (value + 0x8000000000000000) % 0x10000000000000000 - 0x8000000000000000

/-- The unsigned number of 64 bits with the same bits. -/
def wrapU64 (value : Int) : Nat := (value % 0x10000000000000000).toNat

/-- A signed result that is stored in 64 bits. -/
def Overflow.fitI64 (overflow : Overflow) (value : Int) : Option Int :=
  if -0x8000000000000000 ≤ value ∧ value < 0x8000000000000000 then some value
  else match overflow with
    | .panics => none
    | .wraps => some (wrapI64 value)

inductive ErrorKind
  | other
deriving DecidableEq

structure IoError where
  kind : ErrorKind
  message : String
deriving DecidableEq

/-- The reader of the initial partition, which has a fixed length. -/
structure InitprtReader where
  data : List UInt8
  pos : Nat
  sized : data.length = initprtLength

inductive SeekFrom
  | start (offset : UInt64)
  | fromEnd (offset : Int64)
  | current (offset : Int64)

namespace InitprtReader
open Prog

def init (data : List UInt8) (sized : data.length = initprtLength) : InitprtReader := ⟨data, 0, sized⟩

def isEof (reader : InitprtReader) : Bool := reader.data.length ≤ reader.pos

def setPos (reader : InitprtReader) (pos : Nat) : InitprtReader := { reader with pos := pos }

/-- The slice of some bytes; `none` is a panic. -/
def slice (bytes : List UInt8) (start stop : Nat) : Option (List UInt8) :=
  if start ≤ stop ∧ stop ≤ bytes.length then some ((bytes.take stop).drop start) else none

/-- Read into the buffer: the number of bytes that were read, and the buffer
after it. -/
def read (overflow : Overflow) (buf : List UInt8) : Prog InitprtReader IoError (Nat × List UInt8) := do
  let reader ← Prog.read id
  if reader.isEof then pure (0, buf)
  else do
    let remain ← unwrap (overflow.sub 64 reader.data.length reader.pos)
    let copyLen := min buf.length remain
    let stop ← unwrap (overflow.fit 64 (reader.pos + copyLen))
    let source ← unwrap (slice reader.data reader.pos stop)
    let front ← unwrap (slice buf 0 copyLen)
    -- `copy_from_slice` panics when the slices differ in length.
    if source.length = front.length then do
      write (setPos · stop)
      pure (copyLen, source ++ buf.drop copyLen)
    else abort

def seekOutOfBounds : IoError := ⟨.other, "seek out of bounds"⟩

/-- The check that all three ways to seek share. -/
def checkBounds (off : Int) : Prog InitprtReader IoError Int :=
  if off < 0 ∨ (initprtLength : Int) < off then fail seekOutOfBounds else pure off

def seek (overflow : Overflow) (pos : SeekFrom) : Prog InitprtReader IoError Nat := do
  let newPos ← match pos with
    | .start offset => checkBounds (wrapI64 offset.toNat)
    | .fromEnd offset => do
      let off ← unwrap (overflow.fitI64 (initprtLength + offset.toInt))
      checkBounds off
    | .current offset => do
      let reader ← Prog.read id
      let off ← unwrap (overflow.fitI64 (wrapI64 reader.pos + offset.toInt))
      checkBounds off
  write (setPos · (wrapU64 newPos))
  pure (wrapU64 newPos)

/-- The calls of a reader, and what they return. -/
inductive Call
  | read (buf : List UInt8)
  | seek (pos : SeekFrom)

inductive Returned
  | read (count : Nat) (buf : List UInt8)
  | seek (pos : Nat)

def Call.run (overflow : Overflow) : Call → Prog InitprtReader IoError Returned
  | .read buf => do
    let (count, buf) ← InitprtReader.read overflow buf
    pure (.read count buf)
  | .seek pos => do
    let newPos ← InitprtReader.seek overflow pos
    pure (.seek newPos)

/-- The states of the reader after any calls. -/
inductive Reach (overflow : Overflow) (data : List UInt8) : InitprtReader → Prop
  | init (sized : data.length = initprtLength) : Reach overflow data (init data sized)
  | call {reader reader' : InitprtReader} {result : Except IoError Returned} (call : Call) :
      Reach overflow data reader → call.run overflow reader = some (result, reader') → Reach overflow data reader'

end InitprtReader

/-- The position that is asked for, as a number. -/
def SeekFrom.target (length pos : Nat) : SeekFrom → Int
  | .start offset => offset.toNat
  | .fromEnd offset => length + offset.toInt
  | .current offset => pos + offset.toInt

namespace InitprtReader
open Prog

/-- A bounded cursor goes to a position inside the data, or it stays. -/
def goTo (reader : InitprtReader) (target : Int) : Except IoError Nat × InitprtReader :=
  if 0 ≤ target ∧ target ≤ reader.data.length then (.ok target.toNat, reader.setPos target.toNat)
  else (.error seekOutOfBounds, reader)

/-- A bounded cursor copies what is left of the data to the front of the
buffer. -/
def copyTo (reader : InitprtReader) (buf : List UInt8) : (Nat × List UInt8) × InitprtReader :=
  let copied := (reader.data.take (min (reader.pos + buf.length) reader.data.length)).drop reader.pos
  ((copied.length, copied ++ buf.drop copied.length), reader.setPos (reader.pos + copied.length))

/-- What a call does on a bounded cursor, without machine arithmetic. -/
def Call.expected (reader : InitprtReader) : Call → Except IoError Returned × InitprtReader
  | .read buf => (.ok (.read (reader.copyTo buf).1.1 (reader.copyTo buf).1.2), (reader.copyTo buf).2)
  | .seek pos =>
    let out := reader.goTo (pos.target reader.data.length reader.pos)
    (out.1.map .seek, out.2)

/-- The sum that a seek computes is a signed number of 64 bits. -/
def Call.Fits (reader : InitprtReader) : Call → Prop
  | .seek (.fromEnd offset) => (initprtLength : Int) + offset.toInt < 0x8000000000000000
  | .seek (.current offset) => (reader.pos : Int) + offset.toInt < 0x8000000000000000
  | _ => True

/-- The offset that a seek checks. -/
def seekOffset (overflow : Overflow) (reader : InitprtReader) : SeekFrom → Option Int
  | .start offset => some (wrapI64 offset.toNat)
  | .fromEnd offset => overflow.fitI64 (initprtLength + offset.toInt)
  | .current offset => overflow.fitI64 (wrapI64 reader.pos + offset.toInt)

section
variable {reader : InitprtReader}

theorem goTo_outside {target : Int} (outside : ¬(0 ≤ target ∧ target ≤ reader.data.length)) :
    reader.goTo target = (.error seekOutOfBounds, reader) :=
  if_neg outside

theorem checkBounds_goTo (reader : InitprtReader) (off : Int) :
    (checkBounds off >>= fun newPos => do
      write (setPos · (wrapU64 newPos))
      pure (wrapU64 newPos)) reader = some (reader.goTo off) := by
  have sized := reader.sized
  by_cases inside : off < 0 ∨ (initprtLength : Int) < off
  · rw [bind_error (e := seekOutOfBounds) (s := reader), goTo_outside (by omega)]
    unfold checkBounds
    rw [if_pos inside]
    rfl
  · have same : wrapU64 off = off.toNat := by
      unfold wrapU64
      unfold initprtLength at inside
      omega
    have passed : checkBounds off reader = some (.ok off, reader) := by
      unfold checkBounds
      rw [if_neg inside]
      rfl
    rw [bind_ok passed, same]
    unfold goTo
    rw [if_pos (by omega)]
    rfl

theorem unwrap_goTo (reader : InitprtReader) (sum : Option Int) :
    (unwrap sum >>= fun off => checkBounds off >>= fun newPos => do
      write (setPos · (wrapU64 newPos))
      pure (wrapU64 newPos)) reader = sum.map reader.goTo := by
  cases sum with
  | none => rfl
  | some off => exact checkBounds_goTo reader off

theorem seek_eq (overflow : Overflow) (reader : InitprtReader) (pos : SeekFrom) :
    seek overflow pos reader = (seekOffset overflow reader pos).map reader.goTo := by
  cases pos with
  | start offset => exact checkBounds_goTo reader _
  | fromEnd offset => exact unwrap_goTo reader _
  | current offset =>
    refine (read_bind id _ reader).trans ?_
    exact unwrap_goTo reader _

theorem wrapI64_pos (bounded : reader.pos ≤ initprtLength) : wrapI64 reader.pos = reader.pos := by
  unfold initprtLength at bounded
  unfold wrapI64
  omega

/-- A sum that is too large wraps to a negative number, which is out of bounds
as the sum is. -/
theorem goTo_wraps {length : Nat} {offset : Int64} (small : length ≤ initprtLength)
    (large : ¬(length : Int) + offset.toInt < 0x8000000000000000) :
    reader.goTo (wrapI64 (length + offset.toInt)) = reader.goTo (length + offset.toInt) := by
  have sized := reader.sized
  have upper := offset.toInt_lt
  unfold initprtLength at small sized
  rw [goTo_outside (by unfold wrapI64; omega), goTo_outside (by omega)]

theorem fitI64_of_lt (overflow : Overflow) {length : Nat} {offset : Int64}
    (fits : (length : Int) + offset.toInt < 0x8000000000000000) :
    overflow.fitI64 (length + offset.toInt) = some (length + offset.toInt) := by
  have lower := offset.le_toInt
  exact if_pos ⟨by omega, fits⟩

theorem start_goTo (reader : InitprtReader) (offset : UInt64) :
    reader.goTo (wrapI64 offset.toNat) = reader.goTo offset.toNat := by
  have sized := reader.sized
  have upper := offset.toNat_lt
  unfold initprtLength at sized
  by_cases small : offset.toNat < 0x8000000000000000
  · have same : wrapI64 offset.toNat = offset.toNat := by
      unfold wrapI64
      omega
    rw [same]
  · rw [goTo_outside (by unfold wrapI64; omega), goTo_outside (by omega)]

/-- In a build that wraps, every seek is that of the bounded cursor. -/
theorem seek_wraps (bounded : reader.pos ≤ initprtLength) (pos : SeekFrom) :
    seek .wraps pos reader = some (reader.goTo (pos.target reader.data.length reader.pos)) := by
  have fit_goTo : ∀ {length : Nat} (offset : Int64), length ≤ initprtLength →
      (Overflow.fitI64 .wraps (length + offset.toInt)).map reader.goTo = some (reader.goTo (length + offset.toInt)) := by
    intro length offset small
    by_cases fits : (length : Int) + offset.toInt < 0x8000000000000000
    · rw [fitI64_of_lt .wraps fits]
      rfl
    · rw [← goTo_wraps small fits]
      exact congrArg (Option.map reader.goTo) (if_neg fun range => fits range.2)
  rw [seek_eq]
  cases pos with
  | start offset => exact congrArg some (start_goTo reader offset)
  | fromEnd offset =>
    rw [SeekFrom.target, reader.sized]
    exact fit_goTo offset le_rfl
  | current offset =>
    rw [seekOffset, wrapI64_pos bounded]
    exact fit_goTo offset bounded

/-- In a build that panics, a seek is that of the bounded cursor unless its sum
does not fit. -/
theorem seek_panics (bounded : reader.pos ≤ initprtLength) (pos : SeekFrom) :
    (Call.seek pos).Fits reader ∧
        seek .panics pos reader = some (reader.goTo (pos.target reader.data.length reader.pos)) ∨
      ¬(Call.seek pos).Fits reader ∧ seek .panics pos reader = none := by
  rw [seek_eq]
  cases pos with
  | start offset => exact .inl ⟨trivial, congrArg some (start_goTo reader offset)⟩
  | fromEnd offset =>
    rw [SeekFrom.target, reader.sized, seekOffset]
    by_cases fits : (Call.seek (.fromEnd offset)).Fits reader
    · exact .inl ⟨fits, congrArg (Option.map reader.goTo) (fitI64_of_lt .panics fits)⟩
    · exact .inr ⟨fits, congrArg (Option.map reader.goTo) (if_neg fun range => fits range.2)⟩
  | current offset =>
    rw [SeekFrom.target, seekOffset, wrapI64_pos bounded]
    by_cases fits : (Call.seek (.current offset)).Fits reader
    · exact .inl ⟨fits, congrArg (Option.map reader.goTo) (fitI64_of_lt .panics fits)⟩
    · exact .inr ⟨fits, congrArg (Option.map reader.goTo) (if_neg fun range => fits range.2)⟩

/-- No read panics, in any build. -/
theorem read_eq (overflow : Overflow) (bounded : reader.pos ≤ initprtLength) (buf : List UInt8) :
    read overflow buf reader = some (.ok (reader.copyTo buf).1, (reader.copyTo buf).2) := by
  have sized := reader.sized
  unfold read
  rw [read_bind]
  by_cases eof : reader.isEof = true
  · have past : reader.data.length ≤ reader.pos := of_decide_eq_true eof
    have copied : (reader.data.take (min (reader.pos + buf.length) reader.data.length)).drop reader.pos = [] :=
      List.drop_eq_nil_of_le (by rw [List.length_take]; omega)
    simp only [id_eq, if_pos eof, copyTo, copied]
    rfl
  · have left : reader.pos < reader.data.length := Nat.lt_of_not_le fun past => eof (decide_eq_true past)
    have small : initprtLength < 2 ^ 64 := by decide
    have stop : reader.pos + min buf.length (reader.data.length - reader.pos) =
        min (reader.pos + buf.length) reader.data.length := by omega
    have count : ((reader.data.take (min (reader.pos + buf.length) reader.data.length)).drop reader.pos).length =
        min buf.length (reader.data.length - reader.pos) := by
      rw [List.length_drop, List.length_take]
      omega
    have front : slice buf 0 (min buf.length (reader.data.length - reader.pos)) =
        some (buf.take (min buf.length (reader.data.length - reader.pos))) := if_pos ⟨Nat.zero_le _, Nat.min_le_left ..⟩
    have source : slice reader.data reader.pos (min (reader.pos + buf.length) reader.data.length) =
        some ((reader.data.take (min (reader.pos + buf.length) reader.data.length)).drop reader.pos) :=
      if_pos ⟨by omega, by omega⟩
    simp only [id_eq, if_neg eof, Overflow.sub_of_le _ _ left.le, unwrap_bind, stop]
    rw [Overflow.fit_of_lt _ (by omega), unwrap_bind, source, unwrap_bind, front, unwrap_bind, if_pos, write_bind]
    · simp only [copyTo, count, stop]
      rfl
    · rw [count, List.length_take]
      omega

theorem run_seek {overflow : Overflow} {pos : SeekFrom} {out : Except IoError Nat × InitprtReader}
    (run : seek overflow pos reader = some out) : (Call.seek pos).run overflow reader = some (out.1.map .seek, out.2) := by
  obtain ⟨result, reader'⟩ := out
  cases result with
  | error e => exact bind_error run
  | ok newPos => exact bind_ok run

theorem run_read (overflow : Overflow) (bounded : reader.pos ≤ initprtLength) (buf : List UInt8) :
    (Call.read buf).run overflow reader = some ((Call.read buf).expected reader) :=
  bind_ok (read_eq overflow bounded buf)

theorem run_wraps (bounded : reader.pos ≤ initprtLength) (call : Call) :
    call.run .wraps reader = some (call.expected reader) := by
  cases call with
  | read buf => exact run_read .wraps bounded buf
  | seek pos => exact run_seek (seek_wraps bounded pos)

/-- All that a call can do in a build that panics. -/
theorem run_panics (bounded : reader.pos ≤ initprtLength) (call : Call) :
    call.Fits reader ∧ call.run .panics reader = some (call.expected reader) ∨
      ¬call.Fits reader ∧ call.run .panics reader = none := by
  cases call with
  | read buf => exact .inl ⟨trivial, run_read .panics bounded buf⟩
  | seek pos =>
    rcases seek_panics bounded pos with ⟨fits, run⟩ | ⟨large, run⟩
    · exact .inl ⟨fits, run_seek run⟩
    · exact .inr ⟨large, bind_none _ run⟩

theorem expected_bounded (bounded : reader.pos ≤ initprtLength) (call : Call) :
    (call.expected reader).2.pos ≤ initprtLength ∧ (call.expected reader).2.data = reader.data := by
  have sized := reader.sized
  cases call with
  | read buf =>
    refine ⟨?_, rfl⟩
    simp only [Call.expected, copyTo, setPos, List.length_drop, List.length_take]
    omega
  | seek pos =>
    simp only [Call.expected, goTo]
    split
    · refine ⟨?_, rfl⟩
      simp only [setPos]
      omega
    · exact ⟨bounded, rfl⟩

theorem Reach.bounded {overflow : Overflow} {data : List UInt8} (reach : Reach overflow data reader) :
    reader.pos ≤ initprtLength ∧ reader.data = data := by
  induction reach with
  | init sized => exact ⟨Nat.zero_le _, rfl⟩
  | @call reader reader' result call _ run ih =>
    obtain ⟨bounded, same⟩ := ih
    have done : call.run overflow reader = some (call.expected reader) := by
      cases overflow with
      | wraps => exact run_wraps bounded call
      | panics =>
        rcases run_panics bounded call with ⟨_, done⟩ | ⟨_, stuck⟩
        · exact done
        · rw [stuck] at run
          cases run
    have last : (call.expected reader).2 = reader' := congrArg Prod.snd (Option.some.inj (done.symm.trans run))
    obtain ⟨after, kept⟩ := expected_bounded bounded call
    rw [last] at after kept
    exact ⟨after, kept.trans same⟩

end

/-- After any calls the reader is a bounded cursor over its data. Without
overflow checks every further call is that of the cursor; with them a call is
if and only if the sum it computes fits, and it is a panic otherwise. -/
theorem reader_bounded_cursor_iff {overflow : Overflow} {data : List UInt8} {reader : InitprtReader}
    (reach : Reach overflow data reader) (call : Call) :
    reader.pos ≤ data.length ∧ reader.data = data ∧ call.run .wraps reader = some (call.expected reader) ∧
      (call.run .panics reader = some (call.expected reader) ↔ call.Fits reader) := by
  obtain ⟨bounded, same⟩ := reach.bounded
  refine ⟨?_, same, run_wraps bounded call, ?_⟩
  · rw [← same, reader.sized]
    exact bounded
  · rcases run_panics bounded call with ⟨fits, run⟩ | ⟨large, run⟩
    · simp [run, fits]
    · simp [run, large]

/-- An empty partition. -/
def blank : InitprtReader := init (List.replicate initprtLength 0) List.length_replicate

theorem blank_reach (overflow : Overflow) : Reach overflow (List.replicate initprtLength 0) blank :=
  .init List.length_replicate

/-- In the second sector a seek by one sector is that of the cursor, and one as far
behind the end as can be asked for is not. -/
theorem reader_bounded_cursor_second_sector :
    ∃ reader, Reach .panics (List.replicate initprtLength 0) reader ∧ reader.pos = 512 ∧
      (Call.seek (.current 512)).run .panics reader = some ((Call.seek (.current 512)).expected reader) ∧
      (Call.seek (.fromEnd Int64.maxValue)).run .panics reader ≠
        some ((Call.seek (.fromEnd Int64.maxValue)).expected reader) := by
  have first := (reader_bounded_cursor_iff (blank_reach .panics) (.seek (.start 512))).2.2.2.mpr trivial
  have inside : (0 : Int) ≤ 512 ∧ (512 : Int) ≤ blank.data.length := by
    rw [blank.sized]
    decide
  have target : (SeekFrom.start 512).target blank.data.length blank.pos = 512 := rfl
  rw [Call.expected, target, goTo, if_pos inside] at first
  have reach := Reach.call _ (blank_reach .panics) first
  have exact_iff (pos : SeekFrom) := (reader_bounded_cursor_iff reach (.seek pos)).2.2.2
  exact ⟨_, reach, rfl, (exact_iff (.current 512)).mpr (by unfold Call.Fits; decide),
    fun right => absurd ((exact_iff (.fromEnd Int64.maxValue)).mp right) (by unfold Call.Fits; decide)⟩

/-- A seek as far behind the end as can be asked for is no error but a panic. -/
theorem seek_end_max_panics :
    Reach .panics (List.replicate initprtLength 0) blank ∧ (Call.seek (.fromEnd Int64.maxValue)).run .panics blank = none ∧
      (Call.seek (.fromEnd Int64.maxValue)).run .panics blank ≠
        some ((Call.seek (.fromEnd Int64.maxValue)).expected blank) := by
  have bounded : blank.pos ≤ initprtLength := Nat.zero_le _
  refine ⟨blank_reach .panics, ?_⟩
  rcases run_panics bounded (.seek (.fromEnd Int64.maxValue)) with ⟨fits, _⟩ | ⟨_, run⟩
  · exact absurd fits (by unfold Call.Fits; decide)
  · rw [run]
    exact ⟨rfl, (Option.some_ne_none _).symm⟩

end InitprtReader

end ProkaKernel
