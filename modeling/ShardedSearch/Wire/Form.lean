import ShardedSearch.Wire.Varint

/-! # Byte forms

Values with a self-delimiting byte form. Text and blocks of bytes carry their length
in front; counts are varints.
-/

namespace ShardedSearch.Wire

/-- Values with a byte form that shows where it ends. -/
class Form (α : Type) where
  encode : α → Bytes
  /-- The value at the start of the bytes, and the bytes after it. -/
  decode : Bytes → Except WireError (α × Bytes)
  /-- Length of the byte form. -/
  size : α → Nat

export Form (encode decode size)

/-- A value whose form takes up all of the bytes. -/
def ofBytes {α : Type} [Form α] (bs : Bytes) : Except WireError α :=
  match decode bs with
  | .ok (v, []) => .ok v
  | .ok (_, rest) => .error (.trailingBytes rest.length)
  | .error e => .error e

def encodeBlock (bs : Bytes) : Bytes := Varint.encode bs.length ++ bs

def decodeBlock (part : Part) (bs : Bytes) : Except WireError (Bytes × Bytes) :=
  match Varint.decode bs with
  | .ok (n, rest) =>
    if rest.length < n then .error (.truncated part n rest.length)
    else .ok (rest.take n, rest.drop n)
  | .error e => .error e

def blockSize (length : Nat) : Nat := Varint.size length + length

def utf8 (s : String) : Bytes := s.toByteArray.data.toList

def ofUtf8? (bs : Bytes) : Option String := String.fromUTF8? ⟨bs.toArray⟩

instance : Form String where
  encode s := encodeBlock (utf8 s)
  decode bs :=
    match decodeBlock .string bs with
    | .ok (block, rest) =>
      match ofUtf8? block with
      | some s => .ok (s, rest)
      | none => .error .invalidUtf8
    | .error e => .error e
  size s := blockSize s.utf8ByteSize

instance : Form Bytes where
  encode := encodeBlock
  decode := decodeBlock .byteArray
  size bs := blockSize bs.length

instance : Form UInt64 where
  encode n := Varint.encode n.toNat
  decode bs := (Varint.decode bs).map fun p => (UInt64.ofNat p.1, p.2)
  size n := Varint.size n.toNat

/-- Any byte but zero is true. -/
instance : Form Bool where
  encode b := [if b then 1 else 0]
  decode
    | [] => .error (.truncated .bool 1 0)
    | b :: bs => .ok (b != 0, bs)
  size _ := 1

def decodeMany {α : Type} [Form α] : Nat → Bytes → Except WireError (List α × Bytes)
  | 0, bs => .ok ([], bs)
  | n + 1, bs =>
    match decode bs with
    | .ok (v, rest) => (decodeMany n rest).map fun p => (v :: p.1, p.2)
    | .error e => .error e

end ShardedSearch.Wire
