/-
  Reading positions. A cursor holds the bytes that are still to be read and the
  number of bytes that stand before them, so that a fault can be reported at its
  offset from the start of the outermost message.
-/

namespace ProtoStub.Wire

/-- The rest of the bytes and the offset where it starts. -/
structure Cursor where
  offset : Nat
  bytes : List UInt8
  deriving DecidableEq, Repr

namespace Cursor

/-- The start of a byte sequence. -/
def start (bytes : List UInt8) : Cursor := ⟨0, bytes⟩

/-- The cursor `count` bytes on. -/
def advance (c : Cursor) (count : Nat) : Cursor :=
  ⟨c.offset + count, c.bytes.drop count⟩

/-- The cursor over the next `count` bytes only. -/
def window (c : Cursor) (count : Nat) : Cursor :=
  ⟨c.offset, c.bytes.take count⟩

/-- The number of bytes that are still to be read. -/
def size (c : Cursor) : Nat := c.bytes.length

@[simp] theorem size_advance (c : Cursor) (n : Nat) : (c.advance n).size = c.size - n := by
  simp [advance, size]

@[simp] theorem size_window (c : Cursor) (n : Nat) : (c.window n).size = min n c.size := by
  simp [window, size]

@[simp] theorem advance_zero (c : Cursor) : c.advance 0 = c := by
  simp [advance]

@[simp] theorem advance_advance (c : Cursor) (m n : Nat) :
    (c.advance m).advance n = c.advance (m + n) := by
  simp [advance, Nat.add_assoc]

end Cursor
end ProtoStub.Wire
