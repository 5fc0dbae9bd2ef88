import StructLang.Machine.Word

namespace StructLang.Machine

structure Memory where
  bytes : Array UInt8
  deriving DecidableEq, Repr, Inhabited

def origin : Nat := 16

namespace Memory

def ofData (data : List UInt8) : Memory := ⟨(List.replicate origin 0 ++ data).toArray⟩

def size (m : Memory) : Nat := m.bytes.size

def readAt (m : Memory) (addr : Nat) : Nat → Word
  | 0 => 0
  | n + 1 => (m.readAt (addr + 1) n <<< 8) ||| (m.bytes.getD addr 0).toUInt64

def writeAt (m : Memory) (addr : Nat) (w : Word) : Nat → Memory
  | 0 => m
  | n + 1 => writeAt ⟨m.bytes.setIfInBounds addr w.toUInt8⟩ (addr + 1) (w >>> 8) n

def inBounds (m : Memory) (addr : Word) (n : Nat) : Bool :=
  origin ≤ addr.toNat && addr.toNat + n ≤ m.size

def load (m : Memory) (s : Scalar) (addr : Word) : Except Trap Word :=
  if m.inBounds addr s.bytes then .ok (m.readAt addr.toNat s.bytes) else .error .badAddress

def store (m : Memory) (s : Scalar) (addr : Word) (w : Word) : Except Trap Memory :=
  if m.inBounds addr s.bytes then .ok (m.writeAt addr.toNat w s.bytes) else .error .badAddress

def growTo (m : Memory) (size : Nat) : Memory :=
  ⟨(List.range (size - m.size)).foldl (fun bytes _ => bytes.push 0) m.bytes⟩

def shrinkTo (m : Memory) (size : Nat) : Memory := ⟨m.bytes.shrink size⟩

end Memory

/-- A scalar inside of a struct, and what is added to the address of the struct to get to it. -/
structure Leaf where
  scalar : Scalar
  offset : Word
  deriving DecidableEq, Repr

def Memory.copy (m : Memory) (source target : Word) : List Leaf → Except Trap Memory
  | [] => .ok m
  | leaf :: rest => do
    let w ← m.load leaf.scalar (source + leaf.offset)
    let m ← m.store leaf.scalar (target + leaf.offset) w
    m.copy source target rest

end StructLang.Machine
