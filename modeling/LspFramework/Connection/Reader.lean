import LspFramework.Lib.Chars

/-!
# Streams and the input reader

`Stream` is the reading side of an `io::Stream`.  A read that asks for more than the peer has sent
stores what there is and reports success or an error, as `onShort` says for each such read: a
`StandardIOStream` reports success, a `Socket` an error.

`InputReader` looks one character ahead.  `before S s` and `ahead S c s` are its two states on the
stream `S` when the text `s` is still in the stream; the lemmas say what `peek` and `get` do in them.
-/

namespace Lsp.Connection

open Chars

/-! ## Algorithm -/

structure Stream where
  input : Bytes
  onShort : Nat → Option Bytes
  /-- How many reads have come up short. -/
  shorts : Nat := 0

/-- `Stream::Eof`; a `char` is signed, so it also equals `std::char_traits<char>::eof()`. -/
def Eof : UInt8 := 0xFF

/-- `Stream::read`: the bytes stored and the error reported. -/
def Stream.read (size : Nat) (s : Stream) : (Bytes × Option Bytes) × Stream :=
  if size ≤ s.input.length then ((s.input.take size, none), { s with input := s.input.drop size })
  else ((s.input, s.onShort s.shorts), { s with input := [], shorts := s.shorts + 1 })

structure InputReader where
  stream : Stream
  peeked : Option UInt8 := none

namespace InputReader

/-- A failed read leaves `Eof` in the character. -/
def get (reader : InputReader) : UInt8 × InputReader :=
  match reader.peeked with
  | some c => (c, { reader with peeked := none })
  | none =>
    let res := reader.stream.read 1
    (res.1.1.headD Eof, { reader with stream := res.2 })

def peek (reader : InputReader) : UInt8 × InputReader :=
  match reader.peeked with
  | some c => (c, reader)
  | none =>
    let res := reader.get
    (res.1, { res.2 with peeked := some res.1 })

/-- The bytes stored in the buffer and the error. -/
def read (size : Nat) (reader : InputReader) : (Bytes × Option Bytes) × InputReader :=
  if 0 < size then
    match reader.peeked with
    | some c =>
      let res := reader.stream.read (size - 1)
      ((c :: res.1.1, res.1.2), ⟨res.2, none⟩)
    | none =>
      let res := reader.stream.read size
      (res.1, ⟨res.2, none⟩)
  else (([], none), reader)

/-! ## Lemmas -/

def before (S : Stream) (s : Bytes) : InputReader := ⟨{ S with input := s }, none⟩

def ahead (S : Stream) (c : UInt8) (s : Bytes) : InputReader := ⟨{ S with input := s }, some c⟩

variable (S : Stream) (c : UInt8) (s : Bytes)

@[simp] theorem get_before : (before S (c :: s)).get = (c, before S s) := by
  simp [get, before, Stream.read]

@[simp] theorem get_ahead : (ahead S c s).get = (c, before S s) := rfl

@[simp] theorem peek_before : (before S (c :: s)).peek = (c, ahead S c s) := by
  simp [peek, get, before, ahead, Stream.read]

@[simp] theorem peek_ahead : (ahead S c s).peek = (c, ahead S c s) := rfl

/-- At the end of the input the reader sees `Eof`, as if that byte had been sent. -/
@[simp] theorem get_end : (before S []).get = (Eof, before { S with shorts := S.shorts + 1 } []) := by
  simp [get, before, Stream.read]

@[simp] theorem peek_end :
    (before S []).peek = (Eof, ahead { S with shorts := S.shorts + 1 } Eof []) := by
  simp [peek, get, before, ahead, Stream.read]

theorem read_before_of_le {n : Nat} (h : n ≤ s.length) :
    (before S s).read n = ((s.take n, none), before S (s.drop n)) := by
  unfold read
  split
  · simp [before, Stream.read, h]
  · obtain rfl : n = 0 := by omega
    rfl

theorem read_before_of_lt {n : Nat} (h : s.length < n) :
    (before S s).read n =
      ((s, S.onShort S.shorts), before { S with shorts := S.shorts + 1 } []) := by
  unfold read
  rw [if_pos (by omega)]
  simp [before, Stream.read, Nat.not_le.mpr h]

end InputReader

end Lsp.Connection
